import Mathlib.Data.List.Induction
import XmppProxy.Stanza.Segmentation

/-! No byte is lost: whatever a filter reads without an error is the stanzas that it returned, the bytes
between them, and what it still holds. -/

namespace XmppProxy.Stanza

open Lib

/-- A stanza as it is returned, well-formed or not. -/
structure Delimited (s : Bytes) : Prop where
  head : s.head? = some lt
  last : s.getLast? = some gt

/-- `bs` is made of the stanzas `ss`, in order, and of bytes between them that start no stanza. -/
inductive Cut : Bytes → List Bytes → Prop where
  | nil : Cut [] []
  | gap {bs : Bytes} {ss : List Bytes} {b : UInt8} : Cut bs ss → b ≠ lt → Cut (bs ++ [b]) ss
  | stanza {bs : Bytes} {ss : List Bytes} {s : Bytes} : Cut bs ss → Delimited s →
      Cut (bs ++ s) (ss ++ [s])

theorem Cut.pieces {bs : Bytes} {ss : List Bytes} (h : Cut bs ss) :
    ∃ (lead : Bytes) (us : List (Bytes × Bytes)), bs = lead ++ us.flatMap (fun u => u.1 ++ u.2) ∧
      us.map Prod.fst = ss ∧ lt ∉ lead ∧ ∀ u ∈ us, Delimited u.1 ∧ lt ∉ u.2 := by
  induction h with
  | nil => exact ⟨[], [], rfl, rfl, List.not_mem_nil, fun u hu => absurd hu List.not_mem_nil⟩
  | @gap bs ss b _ hb ih =>
    obtain ⟨lead, us, rfl, rfl, hlead, hus⟩ := ih
    have hconcat : ∀ {w : Bytes}, lt ∉ w → lt ∉ w ++ [b] := by
      intro w hw hmem
      rcases List.mem_append.mp hmem with hmem | hmem
      · exact hw hmem
      · exact hb (List.mem_singleton.mp hmem).symm
    obtain rfl | ⟨us, u, rfl⟩ := List.eq_nil_or_concat' us
    · refine ⟨lead ++ [b], [], ?_, rfl, hconcat hlead, hus⟩
      rw [List.flatMap_nil, List.append_nil, List.append_nil]
    · -- the byte joins those behind the last stanza
      refine ⟨lead, us ++ [(u.1, u.2 ++ [b])], ?_, ?_, hlead, fun v hv => ?_⟩
      · simp only [List.flatMap_append, List.flatMap_singleton, List.append_assoc]
      · simp only [List.map_append, List.map_singleton]
      · rcases List.mem_append.mp hv with hv | hv
        · exact hus v (List.mem_append_left _ hv)
        · obtain rfl := List.mem_singleton.mp hv
          obtain ⟨hu, hgap⟩ := hus u (List.mem_append_right _ (List.mem_singleton_self u))
          exact ⟨hu, hconcat hgap⟩
  | @stanza bs ss s _ hs ih =>
    obtain ⟨lead, us, rfl, rfl, hlead, hus⟩ := ih
    refine ⟨lead, us ++ [(s, [])], ?_, ?_, hlead, fun v hv => ?_⟩
    · simp only [List.flatMap_append, List.flatMap_singleton, List.append_assoc, List.append_nil]
    · simp only [List.map_append, List.map_singleton]
    · rcases List.mem_append.mp hv with hv | hv
      · exact hus v hv
      · obtain rfl := List.mem_singleton.mp hv
        exact ⟨hs, List.not_mem_nil⟩

def Begun (s : Scanner) : Prop := s.mode = .outside ∧ s.part = [] ∨ s.mode ≠ .outside ∧ s.part.head? = some lt

theorem begun_idle (e : Nat) : Begun (.idle e) := .inl ⟨rfl, rfl⟩

section

variable {s t : Scanner} {b : UInt8}

theorem Begun.push (h : Begun s) (hd : s.dispatch b = .fall t) : Begun (t.push b) := by
  have hl := Scanner.local_dispatch s b
  rw [hd] at hl
  refine .inr ⟨hl.2.1, ?_⟩
  rw [Scanner.push, hl.1]
  rcases h with ⟨hm, hp⟩ | ⟨-, hp⟩
  · -- the only byte that leaves `outside`
    unfold Scanner.dispatch at hd
    rw [hm] at hd
    dsimp only at hd
    split_ifs at hd with hb
    rw [hp, hb]
    rfl
  · rw [List.head?_append, hp]
    rfl

theorem Begun.delimited {e : Nat} (h : Begun s) (hb : b = gt)
    (hd : s.dispatch b = .ret (.ok (some (s.part ++ [b]))) (.idle e)) : Delimited (s.part ++ [b]) := by
  refine ⟨?_, by rw [List.getLast?_concat, hb]⟩
  rcases h with ⟨hm, -⟩ | ⟨-, hp⟩
  · unfold Scanner.dispatch at hd
    rw [hm] at hd
    dsimp only at hd
    split_ifs at hd
    cases hd
  · rw [List.head?_append, hp]
    rfl

/-- What `s` has been given is what it returned, in order, and what it holds. -/
def Kept (bs : Bytes) (ss : List Bytes) (s : Scanner) : Prop := ∃ done, bs = done ++ s.part ∧ Cut done ss

theorem Kept.next {limit : Nat} {bs : Bytes} {ss : List Bytes} {o : Option Bytes} (h : Kept bs ss s)
    (hs : Begun s) (hok : (s.next limit b).1 = .ok o) :
    Kept (bs ++ [b]) (ss ++ o.toList) (s.next limit b).2 ∧ Begun (s.next limit b).2 := by
  obtain ⟨done, rfl, hcut⟩ := h
  have ht := s.turn_next limit b
  generalize (s.next limit b).1 = r at hok ht
  generalize (s.next limit b).2 = t at ht
  subst hok
  rw [List.append_assoc]
  cases ht with
  | skip hm hb =>
    have hp : s.part = [] := (hs.resolve_right fun h => h.1 hm).2
    rw [hp, List.nil_append, Option.toList_none, List.append_nil]
    exact ⟨⟨done ++ [b], by rw [hp, List.append_nil], hcut.gap hb⟩, hs⟩
  | @push t hd _ =>
    rw [Option.toList_none, List.append_nil]
    refine ⟨⟨done, ?_, hcut⟩, hs.push hd⟩
    rw [Scanner.push, Scanner.dispatch_part hd]
  | emit e hb hd _ _ =>
    exact ⟨⟨_, (List.append_nil _).symm, hcut.stanza (hs.delimited hb hd)⟩, begun_idle e⟩

end

theorem kept_run {limit : Nat} (bs : Bytes) (hok : ∀ r ∈ (scanNext limit).outputs (.idle 0) bs, r.isOk) :
    Kept bs (emitted ((scanNext limit).outputs (.idle 0) bs)) ((scanNext limit).final (.idle 0) bs) ∧
      Begun ((scanNext limit).final (.idle 0) bs) := by
  induction bs using List.reverseRecOn with
  | nil => exact ⟨⟨[], rfl, .nil⟩, begun_idle 0⟩
  | append_singleton bs b ih =>
    rw [Machine.outputs_concat] at hok ⊢
    rw [Machine.final_concat]
    obtain ⟨hkept, hbegun⟩ := ih fun r hr => hok r (List.mem_append_left _ hr)
    obtain ⟨o, ho⟩ := Outcome.isOk_iff.mp
      (hok _ (List.mem_append_right _ (List.mem_singleton_self _)))
    have hlast : emitted [((scanNext limit).step ((scanNext limit).final (.idle 0) bs) b).1] =
        o.toList := by
      rw [ho]
      cases o <;> rfl
    rw [emitted_append, hlast]
    exact hkept.next hbegun ho

def pending (f : StanzaFilter) : Bytes := f.buf.take f.cnt

/-- The bytes read, as stanzas, what lies between them, and what is pending in the filter. -/
def Partitioned (bs : Bytes) (returned : List Bytes) (f : StanzaFilter) : Prop :=
  (∃ (lead : Bytes) (us : List (Bytes × Bytes)),
    bs = lead ++ us.flatMap (fun u => u.1 ++ u.2) ++ pending f ∧ us.map Prod.fst = returned ∧
      lt ∉ lead ∧ ∀ u ∈ us, Delimited u.1 ∧ lt ∉ u.2) ∧
    (pending f = [] ↔ f.state = .outsideStanza) ∧
    (f.state ≠ .outsideStanza → (pending f).head? = some lt)

theorem partitioned_of_kept {n : Nat} {bs : Bytes} {ss : List Bytes} {f : StanzaFilter} {s : Scanner}
    (h : Kept bs ss s) (hs : Begun s) (hf : Refines n f s) : Partitioned bs ss f := by
  obtain ⟨done, rfl, hcut⟩ := h
  obtain ⟨lead, us, rfl, hus⟩ := hcut.pieces
  have hp : pending f = s.part := hf.take
  have hstate : f.state = .outsideStanza ↔ s.mode = .outside := by
    rw [hf.state]
    cases s.mode <;> simp [Mode.state]
  refine ⟨⟨lead, us, by rw [hp], hus⟩, ?_, ?_⟩
  · rw [hp, hstate]
    rcases hs with ⟨hm, hnil⟩ | ⟨hm, hhead⟩
    · exact ⟨fun _ => hm, fun _ => hnil⟩
    · refine ⟨fun hnil => ?_, fun h => absurd h hm⟩
      rw [hnil] at hhead
      cases hhead
  · rw [hp, ne_eq, hstate]
    intro hm
    exact (hs.resolve_left fun h => hm h.1).2

theorem partitioned_next (n : Nat) (bs : Bytes) (hok : ∀ r ∈ filterNext.outputs (.new n) bs, r.isOk) :
    Partitioned bs (emitted (filterNext.outputs (.new n) bs)) (filterNext.final (.new n) bs) := by
  rw [(filterNext_refines n).outputs_eq (refines_new n)] at hok ⊢
  obtain ⟨hkept, hbegun⟩ := kept_run bs hok
  exact partitioned_of_kept hkept hbegun ((filterNext_refines n).final (refines_new n) bs)

def unmarked (r : Outcome (Option (Bytes × Nat))) : Outcome (Option Bytes) := do return (← r).map Prod.fst

theorem unmarked_isOk (r : Outcome (Option (Bytes × Nat))) : (unmarked r).isOk = r.isOk := by
  cases r <;> rfl

theorem nextEoft_like : filterNextEoft.Simulates filterNext Alike fun r r' => unmarked r = r' :=
  fun _ _ b h => h.nextEoft b

theorem nextEoft_outputs (n : Nat) (bs : Bytes) :
    (filterNextEoft.outputs (.new n) bs).map unmarked = filterNext.outputs (.new n) bs := by
  have h := nextEoft_like.outputs (Alike.refl (Nat.zero_le _) : Alike (.new n) (.new n)) bs
  generalize filterNextEoft.outputs (.new n) bs = os at h
  generalize filterNext.outputs (.new n) bs = os' at h
  induction h with
  | nil => rfl
  | cons hr _ ih => rw [List.map_cons, hr, ih]

theorem Alike.partitioned {bs : Bytes} {ss : List Bytes} {f g : StanzaFilter} (h : Alike f g)
    (hg : Partitioned bs ss g) : Partitioned bs ss f := by
  have hp : pending f = pending g := h.take
  unfold Partitioned at hg ⊢
  rw [hp, h.state]
  exact hg

/-- Through `next` or through `next_eoft`, every byte that a new filter reads before an error is in a
stanza that it returned, between two of them, or pending. -/
theorem bytes_partitioned (n : Nat) (bs : Bytes) :
    ((∀ r ∈ filterNext.outputs (.new n) bs, r.isOk) →
      Partitioned bs (emitted (filterNext.outputs (.new n) bs)) (filterNext.final (.new n) bs)) ∧
    ((∀ r ∈ filterNextEoft.outputs (.new n) bs, r.isOk) →
      Partitioned bs (emitted ((filterNextEoft.outputs (.new n) bs).map unmarked))
        (filterNextEoft.final (.new n) bs)) := by
  refine ⟨partitioned_next n bs, fun hok => ?_⟩
  have halike := nextEoft_like.final (Alike.refl (Nat.zero_le _) : Alike (.new n) (.new n)) bs
  rw [nextEoft_outputs]
  refine halike.partitioned (partitioned_next n bs fun r hr => ?_)
  rw [← nextEoft_outputs] at hr
  obtain ⟨r', hr', rfl⟩ := List.mem_map.mp hr
  rw [unmarked_isOk]
  exact hok r' hr'

theorem bytes_partitioned_two :
    Partitioned (bytes "x<a/>y<b") [bytes "<a/>"] (filterNext.final (.new 8) (bytes "x<a/>y<b")) ∧
      Partitioned (bytes "x<a/>y<b") [bytes "<a/>"]
        (filterNextEoft.final (.new 8) (bytes "x<a/>y<b")) := by
  have h := bytes_partitioned 8 (bytes "x<a/>y<b")
  exact ⟨h.1 (by decide), h.2 (by decide)⟩

end XmppProxy.Stanza
