import XmppProxy.Model.InOut
import XmppProxy.Stanza.Emission

/-! A given series of units, read byte by byte through one filter: what is left of the unit that is being read,
and which ones are whole. -/

namespace XmppProxy.Stanza

open Lib

section

variable {limit : Nat} {f : StanzaFilter} {u r : Bytes} {b : UInt8}

/-- The filter has a beginning of the unit `u`, of which `r` is left. -/
def Pending (limit : Nat) (f : StanzaFilter) (u r : Bytes) : Prop :=
  ∃ w b s t e, Refines limit f s ∧ u = s.part ++ r ∧ r = w ++ [b] ∧ Trace s w t ∧
    t.dispatch b = .ret (.ok (some u)) (.idle e) ∧ u.length ≤ limit

theorem StanzaUnit.pending (hu : StanzaUnit u) (hlen : u.length ≤ limit) {e : Nat} (hf : Refines limit f (.idle e)) :
    Pending limit f u u := by
  obtain ⟨e', hm⟩ := hu.marks e
  obtain ⟨w, b, s, hw, hr, -, hd⟩ := hm.scans
  exact ⟨w, b, .idle e, s, e', hf, rfl, hw, hr.trace, hd, hlen⟩

theorem Pending.ne_nil (h : Pending limit f u r) : r ≠ [] := by
  obtain ⟨w, b, -, -, -, -, -, rfl, -⟩ := h
  exact List.concat_ne_nil b w

theorem Pending.cnt_lt (h : Pending limit f u r) : f.cnt < f.bufSize := by
  have hr := List.length_pos_iff.mpr h.ne_nil
  obtain ⟨w, b, s, t, e, hf, rfl, -, -, -, hlen⟩ := h
  rw [List.length_append] at hlen
  rw [hf.cnt, hf.size]
  omega

theorem Pending.pollNext (h : Pending limit f u (b :: r)) :
    (∃ f', StanzaRead.pollNext f (.byte b) = (none, f') ∧ Pending limit f' u r) ∨
      ∃ f' e, r = [] ∧ StanzaRead.pollNext f (.byte b) = (some (.ok (some u)), f') ∧ Refines limit f' (.idle e) := by
  have hcnt := h.cnt_lt
  obtain ⟨w, c, s, t, e, hf, hu, hr, htr, hd, hlen⟩ := h
  have hlt : s.part.length < limit := by rw [← hf.cnt, ← hf.size]; exact hcnt
  obtain ⟨hanswer, hnext⟩ := hf.next b
  unfold StanzaRead.pollNext
  rw [if_pos hcnt]
  dsimp only
  generalize f.next b = x at hanswer hnext
  obtain ⟨a, f'⟩ := x
  dsimp only at hanswer hnext
  unfold Scanner.next at hanswer hnext
  rw [if_pos hlt] at hanswer hnext
  cases htr with
  | nil =>
    obtain ⟨rfl, rfl⟩ := List.cons.inj hr
    rw [hd] at hanswer hnext
    subst hanswer
    exact .inr ⟨f', e, rfl, rfl, hnext⟩
  | @cons _ s' _ c' w hfall htr =>
    rw [List.cons_append] at hr
    obtain ⟨rfl, rfl⟩ := List.cons.inj hr
    have hpart : (s'.push b).part = s.part ++ [b] := by rw [Scanner.push, Scanner.dispatch_part hfall]
    rw [hu, List.length_append, List.length_cons, List.length_append, List.length_singleton] at hlen
    have hroom : (s'.push b).part.length ≠ limit := by
      rw [hpart, List.length_append, List.length_singleton]
      omega
    rw [hfall] at hanswer hnext
    dsimp only at hanswer hnext
    rw [Scanner.advance, if_neg hroom] at hanswer hnext
    subst hanswer
    refine .inl ⟨f', rfl, w, c, s'.push b, t, e, hnext, ?_, rfl, htr, hd, ?_⟩
    · rw [hpart, hu, List.append_assoc]
      rfl
    · rw [hu, List.length_append, List.length_cons, List.length_append, List.length_singleton]
      exact hlen

end

/-- Units that fit into a buffer. -/
def Fit (limit : Nat) (us : List Bytes) : Prop := ∀ u ∈ us, StanzaUnit u ∧ u.length ≤ limit

/-- Of `us` the bytes `took` are read and the units `done` are whole. -/
def Within (limit : Nat) (us : List Bytes) (f : StanzaFilter) (took : Bytes) (done : List Bytes) : Prop :=
  ∃ u rest v r, us = done ++ u :: rest ∧ u = v ++ r ∧ took = done.flatten ++ v ∧ Pending limit f u r

section

variable {limit : Nat} {us done : List Bytes} {f : StanzaFilter} {took : Bytes} {b : UInt8}

theorem Fit.within (h : Fit limit us) {rest : List Bytes} {u : Bytes} (hus : us = done ++ u :: rest) {e : Nat}
    (hf : Refines limit f (.idle e)) : Within limit us f done.flatten done := by
  obtain ⟨hu, hlen⟩ := h u (by rw [hus]; exact List.mem_append_right _ (List.mem_cons_self ..))
  exact ⟨u, rest, [], u, hus, rfl, (List.append_nil _).symm, hu.pending hlen hf⟩

theorem Within.isPrefix (h : Within limit us f took done) : done <+: us := by
  obtain ⟨u, rest, -, -, hus, -⟩ := h
  exact ⟨u :: rest, hus.symm⟩

theorem Within.ne (h : Within limit us f took done) : done ≠ us := by
  obtain ⟨u, rest, -, -, hus, -⟩ := h
  intro hsame
  exact List.cons_ne_nil u rest (List.append_cancel_left (hus.symm.trans (hsame.symm.trans (List.append_nil _).symm)))

theorem Within.length_lt (h : Within limit us f took done) : took.length < us.flatten.length := by
  obtain ⟨u, rest, v, r, rfl, rfl, rfl, hp⟩ := h
  have hr := List.length_pos_iff.mpr hp.ne_nil
  simp only [List.flatten_append, List.flatten_cons, List.length_append]
  omega

theorem Within.whole (h : Within limit us f took done) {front : List Bytes} (hf : front <+: us)
    (hlen : front.flatten.length ≤ took.length) : front <+: done := by
  obtain ⟨u, rest, v, r, hus, rfl, rfl, hp⟩ := h
  have hr := List.length_pos_iff.mpr hp.ne_nil
  rcases List.prefix_or_prefix_of_prefix hf ⟨_, hus.symm⟩ with hfront | ⟨x, hx⟩
  · exact hfront
  cases x with
  | nil => exact ⟨[], by rw [List.append_nil] at hx ⊢; exact hx.symm⟩
  | cons u' x =>
    exfalso
    obtain ⟨y, hy⟩ := hf
    rw [← hx, hus, List.append_assoc, List.append_cancel_left_eq, List.cons_append] at hy
    rw [← hx, (List.cons.inj hy).1] at hlen
    simp only [List.flatten_append, List.flatten_cons, List.length_append] at hlen
    omega

/-- The next byte leaves the reader within the same unit, or the unit is whole. -/
theorem Within.pollNext (hfit : Fit limit us) (h : Within limit us f took done) (hb : took ++ [b] <+: us.flatten) :
    (∃ f', StanzaRead.pollNext f (.byte b) = (none, f') ∧ Within limit us f' (took ++ [b]) done) ∨
      ∃ f' u e, StanzaRead.pollNext f (.byte b) = (some (.ok (some u)), f') ∧ Refines limit f' (.idle e) ∧
        done ++ [u] <+: us ∧ took ++ [b] = (done ++ [u]).flatten ∧
        (done ++ [u] ≠ us → Within limit us f' (took ++ [b]) (done ++ [u])) := by
  obtain ⟨u, rest, v, r, hus, hu, htook, hp⟩ := h
  have hbyte : ∃ r', r = b :: r' := by
    cases r with
    | nil => exact absurd rfl hp.ne_nil
    | cons c r' =>
      obtain ⟨x, hx⟩ := hb
      rw [htook, hus, hu] at hx
      simp only [List.append_assoc, List.flatten_append, List.flatten_cons, List.append_cancel_left_eq,
        List.cons_append] at hx
      exact ⟨r', by rw [(List.cons.inj hx).1]⟩
  obtain ⟨r', rfl⟩ := hbyte
  have htook' : took ++ [b] = done.flatten ++ (v ++ [b]) := by rw [htook, List.append_assoc]
  rcases hp.pollNext with ⟨f', hpoll, hp'⟩ | ⟨f', e, rfl, hpoll, hf'⟩
  · refine .inl ⟨f', hpoll, u, rest, v ++ [b], r', hus, ?_, htook', hp'⟩
    rw [hu, List.append_assoc]
    rfl
  · have hwhole : took ++ [b] = (done ++ [u]).flatten := by
      rw [htook', ← hu, List.flatten_append, List.flatten_singleton]
    refine .inr ⟨f', u, e, hpoll, hf', ⟨rest, by rw [hus, List.append_assoc]; rfl⟩, hwhole, fun hne => ?_⟩
    cases rest with
    | nil => exact absurd hus.symm hne
    | cons u' rest =>
      rw [hwhole]
      exact hfit.within (by rw [hus, List.append_assoc]; rfl) hf'

end

end XmppProxy.Stanza
