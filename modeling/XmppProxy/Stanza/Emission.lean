import XmppProxy.Lib.Utf8
import XmppProxy.Stanza.Segmentation

/-! What `next_eoft` hands out with a stanza, in any run, past errors too: the mark stands where the
unit has it, and a unit cut from a UTF-8 stream is UTF-8. -/

namespace XmppProxy.Stanza

open Lib

/-- `next` with the mark, which is cleared when it is handed out. -/
def Scanner.nextEoft (limit : Nat) (s : Scanner) (b : UInt8) :
    Outcome (Option (Bytes × Nat)) × Scanner :=
  match s.next limit b with
  | (.ok (some u), t) => (.ok (some (u, t.eoft)), { t with eoft := 0 })
  | (.ok none, t) => (.ok none, t)
  | (.err e, t) => (.err e, t)
  | (.panic, t) => (.panic, t)

def scanNextEoft (limit : Nat) : Machine Scanner UInt8 (Outcome (Option (Bytes × Nat))) :=
  ⟨Scanner.nextEoft limit⟩

theorem Refines.nextEoft {n : Nat} {f : StanzaFilter} {s : Scanner} (h : Refines n f s) (b : UInt8) :
    (f.nextEoft b).1 = (s.nextEoft n b).1 ∧ Refines n (f.nextEoft b).2 (s.nextEoft n b).2 := by
  obtain ⟨hr, hn⟩ := h.next b
  unfold StanzaFilter.nextEoft Scanner.nextEoft
  generalize f.next b = x at hr hn
  generalize s.next n b = y at hr hn
  obtain ⟨r, f'⟩ := x
  obtain ⟨r', s'⟩ := y
  dsimp only at hr hn
  subst hr
  obtain (_ | u) | e | _ := r
  · exact ⟨rfl, hn⟩
  · dsimp only
    exact ⟨by rw [hn.eoft], { hn with eoft := rfl }⟩
  · exact ⟨rfl, hn⟩
  · exact ⟨rfl, hn⟩

theorem filterNextEoft_refines (n : Nat) :
    filterNextEoft.Simulates (scanNextEoft n) (Refines n) Eq := fun _ _ b h => h.nextEoft b

theorem nextEoft_cases {limit : Nat} {s : Scanner} {b : UInt8} {P : Scanner → Prop} (hidle : P (.idle 0))
    (hquiet : ∀ r t, s.Turn limit b r t → (∀ u, r ≠ .ok (some u)) → P t) :
    P (s.nextEoft limit b).2 := by
  have ht := s.turn_next limit b
  unfold Scanner.nextEoft
  generalize s.next limit b = x at ht
  obtain ⟨r, t⟩ := x
  obtain (_ | u) | e | _ := r
  · exact hquiet _ _ ht (by simp)
  · dsimp only at ht
    cases ht
    exact hidle
  · exact hquiet _ _ ht (by simp)
  · exact hquiet _ _ ht (by simp)

theorem nextEoft_eq_some {limit : Nat} {s : Scanner} {b : UInt8} {u : Bytes} {e : Nat}
    (h : (s.nextEoft limit b).1 = .ok (some (u, e))) :
    u = s.part ++ [b] ∧ s.dispatch b = .ret (.ok (some u)) (.idle e) := by
  have ht := s.turn_next limit b
  unfold Scanner.nextEoft at h
  generalize s.next limit b = x at ht h
  obtain ⟨r, t⟩ := x
  obtain (_ | u') | e' | _ := r <;> dsimp only at h ht
  · cases h
  · cases ht with
    | emit e' _ hd _ _ =>
      obtain ⟨rfl, rfl⟩ := Prod.mk.inj (Option.some.inj (Outcome.ok.inj h))
      exact ⟨rfl, hd⟩
  · cases h
  · cases h

theorem nextEoft_idle {limit : Nat} {s : Scanner} {b : UInt8} {x : Bytes × Nat}
    (h : (s.nextEoft limit b).1 = .ok (some x)) : (s.nextEoft limit b).2 = .idle 0 := by
  have ht := s.turn_next limit b
  unfold Scanner.nextEoft at h ⊢
  generalize s.next limit b = y at ht h
  obtain ⟨r, t⟩ := y
  obtain (_ | u) | e | _ := r <;> dsimp only at h ht ⊢
  · cases h
  · cases ht
    rfl
  · cases h
  · cases h

theorem nextEoft_lt {limit : Nat} {s : Scanner} {b : UInt8} {x : Bytes × Nat}
    (h : (s.nextEoft limit b).1 = .ok (some x)) : s.part.length < limit := by
  by_contra hlt
  unfold Scanner.nextEoft Scanner.next at h
  rw [if_neg hlt] at h
  cases h

/-- A byte that is compared with a whole needle, and dropped as long as they differ. -/
def Loose (s : Scanner) : Prop :=
  s.mode = .outside ∨ s.mode = .question s.part.length ∨ s.mode = .exclamation s.part.length

/-- The bytes end in an ASCII byte, or there are none. -/
def EndsAscii (p : Bytes) : Prop := ∀ b ∈ p.getLast?, b < 0x80

/-- Seen from a scanner inside of a unit: an error changes nothing, and bytes are dropped next to
ASCII bytes only. -/
def Scanner.Move.Tame (s : Scanner) (b : UInt8) : Scanner.Move → Prop
  | .fall _ => Loose s → b < 0x80 ∧ EndsAscii s.part
  | .ret (.ok (some _)) _ => b < 0x80 ∧ ¬ Loose s
  | .ret (.ok none) _ => True
  | .ret (.err _) t => t = s ∧ (b < 0x80 ∨ Loose s)
  | .ret .panic _ => True

section

variable {s : Scanner} {b : UInt8}

theorem tame_subDepth {n : Nat} {k : Scanner → Scanner.Move} (hb : b < 0x80)
    (hk : ∀ d, (k { s with depth := d }).Tame s b) : (s.subDepth n k).Tame s b := by
  unfold Scanner.subDepth
  split
  · exact hk _
  · exact ⟨rfl, .inl hb⟩

theorem tame_ifLastEquals {needle : Bytes} {yes no : Scanner.Move} (hb : b < 0x80 ∨ Loose s)
    (hyes : needle <:+ s.part ++ [b] → yes.Tame s b) (hno : no.Tame s b) :
    (s.ifLastEquals b needle yes no).Tame s b := by
  unfold Scanner.ifLastEquals
  split_ifs with _ h
  · exact hyes h
  · exact hno
  · exact ⟨rfl, hb⟩

theorem ascii_of_suffix {n p : Bytes} {x : UInt8} (h : n ++ [x] <:+ p ++ [b])
    (hx : x < 0x80) (hn : ∃ y, n.getLast? = some y ∧ y < 0x80) : b < 0x80 ∧ EndsAscii p := by
  obtain ⟨q, hq⟩ := h
  rw [← List.append_assoc] at hq
  obtain ⟨hp, hb⟩ := List.append_inj' hq rfl
  obtain ⟨y, hy, hasc⟩ := hn
  refine ⟨(List.cons.inj hb).1 ▸ hx, fun c hc => ?_⟩
  rw [← hp, List.getLast?_append, hy] at hc
  exact Option.some.inj hc ▸ hasc

theorem ascii_byte (hb : b = lt ∨ b = gt ∨ b = slash ∨ b = bang ∨ b = quest ∨ b = apos ∨ b = quot) :
    b < 0x80 := by
  rcases hb with rfl | rfl | rfl | rfl | rfl | rfl | rfl <;> decide

theorem tame_tagClosed {p : Bytes} {e d e' : Nat} {c : Bool} (h : InTag e d e' p c) :
    (Scanner.tagClosed ⟨p, d, e', .tag c⟩ gt).Tame ⟨p, d, e', .tag c⟩ gt := by
  have hgt : gt < 0x80 := by decide
  have hloose : ¬ Loose ⟨p, d, e', .tag c⟩ := by simp [Loose]
  have hafter : ∀ t : Scanner, (t.afterTag gt).Tame ⟨p, d, e', .tag c⟩ gt := by
    intro t
    unfold Scanner.afterTag
    split_ifs
    · exact ⟨hgt, hloose⟩
    · exact ⟨hgt, hloose⟩
    · exact fun hl => absurd hl hloose
  have hlast := List.getLast?_eq_getLast_of_ne_nil h.ne_nil
  unfold Scanner.tagClosed
  rw [hlast, markFirstTag_eq]
  dsimp only
  split_ifs
  swap
  · exact hafter _
  cases c with
  | false =>
    obtain ⟨q, n, w, -, -, -, hq⟩ := h
    have hd : ∃ k, d = k + 1 := by
      rcases hq with ⟨-, hd, -⟩ | ⟨k, hd, -⟩
      · exact ⟨0, hd⟩
      · exact ⟨k, hd⟩
    obtain ⟨k, rfl⟩ := hd
    have hsub : checkedSub (k + 1) 1 = .ok k := if_neg (by omega)
    rw [Scanner.subDepth, hsub]
    exact hafter _
  | true =>
    obtain ⟨q, n, w, -, -, -, hin⟩ := h
    rw [markAt_of_ne hin.eoft_ne]
    exact tame_subDepth hgt fun _ => hafter _

theorem tame_dispatch {e : Nat} (h : Shape e s) : (s.dispatch b).Tame s b := by
  obtain ⟨p, d, e', m⟩ := s
  unfold Scanner.dispatch
  cases m <;> dsimp only [Shape] at h ⊢
  case outside =>
    obtain ⟨rfl, -, -, -⟩ := Scanner.mk.injEq .. ▸ h
    split_ifs with hb
    · exact fun _ => ⟨ascii_byte (.inl hb), fun c hc => absurd hc (by simp)⟩
    · trivial
  case stanzaFirst =>
    split_ifs with h1 h2
    · simp [Scanner.Move.Tame, Loose]
    · exact ⟨rfl, .inl (ascii_byte (by tauto))⟩
    · simp [Scanner.Move.Tame, Loose]
    · simp [Scanner.Move.Tame, Loose]
  case tagFirst =>
    split_ifs with h1 h2 h3
    · exact tame_subDepth (ascii_byte (by tauto)) fun d => by simp [Scanner.Move.Tame, Loose]
    · simp [Scanner.Move.Tame, Loose]
    · exact ⟨rfl, .inl (ascii_byte (by tauto))⟩
    · simp [Scanner.Move.Tame, Loose]
  case tag c =>
    split_ifs with h1
    · subst h1
      exact tame_tagClosed h
    · simp [Scanner.Move.Tame, Loose]
    · simp [Scanner.Move.Tame, Loose]
  case question idx =>
    split_ifs with hi
    · subst hi
      have hl : Loose ⟨p, d, e', .question p.length⟩ := .inr (.inl rfl)
      refine tame_ifLastEquals (.inr hl) (fun hs _ => ?_) ⟨rfl, .inr hl⟩
      exact ascii_of_suffix (n := bytes "xml") (x := 32) hs (by decide) ⟨108, rfl, by decide⟩
    · exact fun hl => absurd (by simpa [Loose] using hl) hi
  case exclamation idx =>
    obtain ⟨q, w, k, rfl, rfl, hw, rfl, hin⟩ := h
    split_ifs with hi
    · rw [hi]
      refine tame_ifLastEquals (.inr (.inr (.inr rfl))) (fun hs => ?_) ⟨rfl, .inr (.inr (.inr rfl))⟩
      have hsub : checkedSub (k + 1) 1 = .ok k := if_neg (by omega)
      rw [Scanner.subDepth, hsub]
      intro _
      exact ascii_of_suffix (n := bytes "[CDATA") (x := 91) hs (by decide) ⟨65, rfl, by decide⟩
    · exact fun hl => absurd (by simpa [Loose] using hl) hi
  case xmlTag =>
    split_ifs with hb
    · exact ⟨ascii_byte (by tauto), by simp [Loose]⟩
    · simp [Scanner.Move.Tame, Loose]
  case cdata =>
    split_ifs with hb
    · exact tame_ifLastEquals (.inl (ascii_byte (by tauto))) (by simp [Scanner.Move.Tame, Loose])
        (by simp [Scanner.Move.Tame, Loose])
    · simp [Scanner.Move.Tame, Loose]
  case endStream =>
    split_ifs with hb
    · have hasc := ascii_byte (b := b) (by tauto)
      exact tame_ifLastEquals (.inl hasc) (fun _ => ⟨hasc, by simp [Loose]⟩) ⟨rfl, .inl hasc⟩
    · simp [Scanner.Move.Tame, Loose]
  all_goals
    split_ifs
    all_goals simp [Scanner.Move.Tame, Loose]

end

theorem Trace.det {s t t' : Scanner} {w : Bytes} (h : Trace s w t) (h' : Trace s w t') : t = t' := by
  induction h with
  | nil =>
    cases h'
    rfl
  | cons hd _ ih =>
    cases h' with
    | cons hd' hrest =>
      obtain rfl := Scanner.Move.fall.inj (hd.symm.trans hd')
      exact ih hrest

theorem Reads.trace {s t : Scanner} {w : Bytes} (h : Reads s w t) : Trace s w t := by
  induction h with
  | nil => exact .nil
  | cons _ hd _ ih => exact .cons hd ih

theorem clean_of_append {s : Scanner} {u v : Bytes} (h : s.Clean (u ++ v)) : s.Clean u := by
  induction u generalizing s with
  | nil => trivial
  | cons b u ih =>
    refine ⟨h.1, ?_⟩
    have hrest := h.2
    split
    next t ht =>
      rw [ht] at hrest
      exact ih hrest
    next => trivial

/-- A stanza that begins like a stream header is over before it could meet a fault. -/
theorem fault_notStream {e : Nat} {s : Scanner} {b : UInt8} (h : Shape e s) (hf : s.Fault b) :
    NotStream s.part := by
  obtain ⟨p, d, e', m⟩ := s
  cases m <;> dsimp only [Shape, Scanner.Fault] at h hf
  case tagFirst c =>
    obtain ⟨rfl, -⟩ := hf
    obtain ⟨q, rfl, hin⟩ := h
    exact NotStream.append (fun _ => hin.not_stream) _
  case tag c =>
    obtain ⟨rfl, -⟩ := hf
    obtain ⟨q, m, w, -, -, rfl, hin⟩ := h
    exact NotStream.append (fun _ => hin.not_stream) _
  case endStream =>
    intro x hp
    obtain ⟨r, hr⟩ := h.2
    rw [← hr, List.append_assoc] at hp
    exact absurd (List.cons_prefix_cons.mp (List.cons_prefix_cons.mp hp).2).1 (by decide)

/-- The pending bytes were read from a new stanza on, or met a fault. Errors in between do not
matter. -/
def Grounded (s : Scanner) : Prop :=
  Trace (.idle 0) s.part s ∧ (Scanner.idle 0).Clean s.part ∨
    ¬ (Scanner.idle 0).Clean s.part ∧ NotStream s.part

theorem grounded_idle : Grounded (.idle 0) := .inl ⟨.nil, trivial⟩

theorem Grounded.trace {s : Scanner} (h : Grounded s) (hc : (Scanner.idle 0).Clean s.part) :
    Trace (.idle 0) s.part s := by
  rcases h with h | h
  · exact h.1
  · exact absurd hc h.1

theorem Grounded.shape {s : Scanner} (h : Grounded s) (hc : (Scanner.idle 0).Clean s.part) :
    Shape 0 s := (h.trace hc).shape (e := 0) rfl hc

theorem Grounded.push {s t : Scanner} {b : UInt8} (h : Grounded s) (hd : s.dispatch b = .fall t) :
    Grounded (t.push b) := by
  have hpart : (t.push b).part = s.part ++ [b] := by rw [Scanner.push, Scanner.dispatch_part hd]
  unfold Grounded
  rw [hpart]
  by_cases hc : (Scanner.idle 0).Clean s.part
  · have htr := h.trace hc
    by_cases hf : s.Fault b
    · have hnot := (fault_notStream (h.shape hc) hf).append [b]
      exact .inr ⟨fun h' => (htr.clean_concat.mp h').2 hf, hnot⟩
    · exact .inl ⟨htr.concat hd, htr.clean_concat.mpr ⟨hc, hf⟩⟩
  · have hnot := (h.resolve_left fun h' => hc h'.2).2
    exact .inr ⟨fun h' => hc (clean_of_append h'), hnot.append [b]⟩

theorem Grounded.tame {s : Scanner} (h : Grounded s) (hc : (Scanner.idle 0).Clean s.part) (b : UInt8) :
    (s.dispatch b).Tame s b := tame_dispatch (h.shape hc)

theorem Grounded.reject {s t : Scanner} {b : UInt8} {e : Error} (h : Grounded s)
    (hd : s.dispatch b = .ret (.err e) t) (hpart : t.part = s.part) : Grounded t := by
  by_cases hc : (Scanner.idle 0).Clean s.part
  · have htame := h.tame hc b
    rw [hd] at htame
    rw [htame.1]
    exact h
  · have hnot := h.resolve_left fun h' => hc h'.2
    exact .inr (hpart ▸ hnot)

theorem Grounded.not_lost {s : Scanner} (h : Grounded s) : ¬ (s.part = [] ∧ s.mode ≠ .outside) := by
  rintro ⟨hp, hm⟩
  have hc : (Scanner.idle 0).Clean s.part := by
    rw [hp]
    trivial
  have htr := h.trace hc
  rw [hp] at htr
  cases htr
  exact hm rfl

theorem grounded_next {limit : Nat} {s : Scanner} (b : UInt8) (h : Grounded s) :
    Grounded (s.nextEoft limit b).2 := by
  refine nextEoft_cases grounded_idle fun r t ht hr => ?_
  cases ht with
  | skip => exact h
  | push hd _ => exact h.push hd
  | emit => exact absurd rfl (hr _)
  | full hd _ => exact h.push hd
  | reject e hd hpart _ => exact h.reject hd hpart
  | panic hp hm => exact absurd ⟨hp, hm⟩ h.not_lost
  | past => exact h

theorem Grounded.mark {limit : Nat} {s : Scanner} {b : UInt8} {u : Bytes} {e e' : Nat} (h : Grounded s)
    (hu : (s.nextEoft limit b).1 = .ok (some (u, e))) (hm : Marks 0 u e') : e = e' := by
  obtain ⟨rfl, hd⟩ := nextEoft_eq_some hu
  have hc : (Scanner.idle 0).Clean s.part := clean_of_append hm.scans.clean
  obtain ⟨w, c, t, heq, hr, -, hd'⟩ := hm.scans
  obtain ⟨rfl, hb⟩ := List.append_inj' heq rfl
  obtain rfl := (List.cons.inj hb).1
  obtain rfl := (h.trace hc).det hr.trace
  exact congrArg Scanner.eoft (Scanner.Move.ret.inj (hd.symm.trans hd')).2

theorem Grounded.unit {limit : Nat} {s : Scanner} {b : UInt8} {u : Bytes} {e : Nat} (h : Grounded s)
    (hu : (s.nextEoft limit b).1 = .ok (some (u, e))) (hs : bytes "<stream:stream " <+: u) :
    StanzaUnit u := by
  obtain ⟨rfl, hd⟩ := nextEoft_eq_some hu
  have hc : (Scanner.idle 0).Clean s.part := by
    by_contra hc
    exact (h.resolve_left fun h' => hc h'.2).2 [b] hs
  have hf : ¬ s.Fault b := fun hf => fault_notStream (h.shape hc) hf [b] hs
  have hsound := sound_dispatch (h.shape hc) hf
  rw [hd] at hsound
  obtain ⟨e', hm, -⟩ := hsound
  exact hm.unit

/-- Below the limit, the pending bytes end in the same place inside of a character as the whole stream
does, up to the bytes dropped. -/
def Synced (limit : Nat) (c : Utf8) (s : Scanner) : Prop :=
  (Scanner.idle 0).Clean s.part → s.part.length < limit →
    ∃ q, Utf8.run .boundary s.part = some q ∧ (q = c ∨ Loose s)

theorem synced_idle (limit : Nat) (c : Utf8) : Synced limit c (.idle 0) :=
  fun _ _ => ⟨.boundary, rfl, .inr (.inl rfl)⟩

theorem run_boundary {p : Bytes} {q : Utf8} (h : Utf8.run .boundary p = some q) (hp : EndsAscii p) :
    q = .boundary := by
  obtain rfl | ⟨p, b, rfl⟩ := List.eq_nil_or_concat' p
  · exact (Option.some.inj h).symm
  · rw [Utf8.run_append] at h
    obtain ⟨q', -, hq'⟩ := Option.bind_eq_some_iff.mp h
    obtain ⟨t, ht, hrest⟩ := Option.bind_eq_some_iff.mp hq'
    have hb : b < 0x80 := hp b (by rw [List.getLast?_concat]; rfl)
    rw [← Option.some.inj hrest]
    exact (Utf8.step_ascii hb ht).2

theorem run_concat {p : Bytes} {q q' : Utf8} {b : UInt8} (h : Utf8.run .boundary p = some q)
    (hb : q.step b = some q') : Utf8.run .boundary (p ++ [b]) = some q' := by
  rw [Utf8.run_append, h, Option.bind_some, Utf8.run, hb]
  rfl

section

variable {limit : Nat} {c c' : Utf8} {s t : Scanner} {b : UInt8}

theorem Synced.push (h : Synced limit c s) (hg : Grounded s) (hb : c.step b = some c')
    (hd : s.dispatch b = .fall t) : Synced limit c' (t.push b) := by
  intro hc hlt
  have hpart : (t.push b).part = s.part ++ [b] := by rw [Scanner.push, Scanner.dispatch_part hd]
  rw [hpart] at hc hlt ⊢
  rw [List.length_append] at hlt
  have hc' := clean_of_append hc
  obtain ⟨q, hq, hsync⟩ := h hc' (Nat.lt_of_le_of_lt (Nat.le_add_right _ _) hlt)
  refine ⟨c', run_concat hq ?_, .inl rfl⟩
  rcases hsync with rfl | hloose
  · exact hb
  · have htame := hg.tame hc' b
    rw [hd] at htame
    obtain ⟨hasc, hends⟩ := htame hloose
    rw [run_boundary hq hends]
    obtain ⟨rfl, -⟩ := Utf8.step_ascii hasc hb
    exact hb

theorem Synced.reject {e : Error} (h : Synced limit c s) (hg : Grounded s) (hb : c.step b = some c')
    (hd : s.dispatch b = .ret (.err e) t) (hpart : t.part = s.part) : Synced limit c' t := by
  intro hc hlt
  rw [hpart] at hc hlt ⊢
  obtain ⟨q, hq, hsync⟩ := h hc hlt
  have htame := hg.tame hc b
  rw [hd] at htame
  obtain ⟨rfl, hasc | hloose⟩ := htame
  · obtain ⟨rfl, rfl⟩ := Utf8.step_ascii hasc hb
    exact ⟨q, hq, hsync⟩
  · exact ⟨q, hq, .inr hloose⟩

theorem Synced.next (h : Synced limit c s) (hg : Grounded s) (hb : c.step b = some c') :
    Synced limit c' (s.nextEoft limit b).2 := by
  refine nextEoft_cases (synced_idle limit c') fun r t ht hr => ?_
  cases ht with
  | skip hm _ =>
    intro hc hlt
    obtain ⟨q, hq, -⟩ := h hc hlt
    exact ⟨q, hq, .inr (.inl hm)⟩
  | push hd _ => exact h.push hg hb hd
  | emit => exact absurd rfl (hr _)
  | full hd hlen => exact fun _ hlt => absurd hlt (by omega)
  | reject e hd hpart _ => exact h.reject hg hb hd hpart
  | panic hp hm => exact absurd ⟨hp, hm⟩ hg.not_lost
  | past hle => exact fun _ hlt => absurd hlt (by omega)

theorem Synced.valid {u : Bytes} {e : Nat} (h : Synced limit c s) (hg : Grounded s)
    (hb : c.step b = some c') (hu : (s.nextEoft limit b).1 = .ok (some (u, e))) (hunit : StanzaUnit u) :
    Utf8.Valid u := by
  obtain ⟨rfl, hd⟩ := nextEoft_eq_some hu
  have hc := clean_of_append hunit.clean
  obtain ⟨q, hq, hsync⟩ := h hc (nextEoft_lt hu)
  have htame := hg.tame hc b
  rw [hd] at htame
  obtain ⟨hasc, hloose⟩ := htame
  obtain rfl := hsync.resolve_right hloose
  obtain ⟨rfl, rfl⟩ := Utf8.step_ascii hasc hb
  exact run_concat hq hb

end

theorem mem_outputs_grounded {n : Nat} {bs : Bytes} {c : Utf8} {s : Scanner} {u : Bytes} {e : Nat}
    (hg : Grounded s) (hs : Synced n c s) (hrun : (Utf8.run c bs).isSome)
    (h : .ok (some (u, e)) ∈ (scanNextEoft n).outputs s bs) :
    (bytes "<stream:stream " <+: u → StanzaUnit u) ∧
      (StanzaUnit u → Utf8.Valid u ∧ ∀ e', Marks 0 u e' → e = e') := by
  induction bs generalizing c s with
  | nil => exact absurd h List.not_mem_nil
  | cons b bs ih =>
    obtain ⟨c', hb⟩ : ∃ c', c.step b = some c' := by
      cases hb : c.step b with
      | none => simp [Utf8.run, hb] at hrun
      | some c' => exact ⟨c', rfl⟩
    rcases List.mem_cons.mp h with hu | h
    · refine ⟨hg.unit hu.symm, fun hunit => ?_⟩
      exact ⟨hs.valid hg hb hu.symm hunit, fun e' hm => hg.mark hu.symm hm⟩
    · refine ih (grounded_next b hg) (hs.next hg hb) ?_ h
      simpa [Utf8.run, hb] using hrun

/-- In any run of a new filter over UTF-8, a stream header is a unit, and every unit is UTF-8 and
comes with its mark. -/
theorem emission {n : Nat} {bs : Bytes} (hbs : Utf8.Valid bs) {u : Bytes} {e : Nat}
    (h : .ok (some (u, e)) ∈ filterNextEoft.outputs (.new n) bs) :
    (bytes "<stream:stream " <+: u → StanzaUnit u) ∧
      (StanzaUnit u → Utf8.Valid u ∧ ∀ e', Marks 0 u e' → e = e') := by
  rw [(filterNextEoft_refines n).outputs_eq (refines_new n)] at h
  refine mem_outputs_grounded grounded_idle (synced_idle n .boundary) ?_ h
  rw [hbs]
  rfl

end XmppProxy.Stanza
