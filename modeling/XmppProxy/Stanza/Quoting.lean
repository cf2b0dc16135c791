import XmppProxy.Proxy.Search
import XmppProxy.Stanza.Replay

/-! Stream headers as text. A word inside of a tag may be put in place of another one that leaves the same quotes
open behind it: the header then still ends where it ended. -/

namespace XmppProxy.Stanza

def quoteStep (q : Option UInt8) (b : UInt8) : Option (Option UInt8) :=
  match q with
  | some c => some (if b = c then none else some c)
  | none => if b = gt then none else some (if b = apos ∨ b = quot then some b else none)

def quotes (q : Option UInt8) (w : Bytes) : Option (Option UInt8) := w.foldlM quoteStep q

theorem quotes_append (q : Option UInt8) (u w : Bytes) :
    quotes q (u ++ w) = (quotes q u).bind fun q' => quotes q' w := List.foldlM_append

theorem quotes_cons (q : Option UInt8) (b : UInt8) (w : Bytes) :
    quotes q (b :: w) = (quoteStep q b).bind fun q' => quotes q' w := List.foldlM_cons

theorem quotes_value {q : UInt8} {v : Bytes} (hv : q ∉ v) : quotes (some q) v = some (some q) := by
  induction v with
  | nil => rfl
  | cons b v ih =>
    obtain ⟨hb, hv⟩ := List.ne_and_not_mem_of_not_mem_cons hv
    rw [quotes_cons, quoteStep, if_neg (Ne.symm hb)]
    exact ih hv

theorem Body.quotes {w : Bytes} (h : Body w) : Stanza.quotes none w = some none := by
  induction h with
  | nil => rfl
  | byte hgt hq _ ih =>
    have hq : ¬ (_ = apos ∨ _ = quot) := hq
    rw [quotes_cons, quoteStep, if_neg hgt, if_neg hq]
    exact ih
  | @quoted q v w hq hv _ ih =>
    have hgt : q ≠ gt := by
      rintro rfl
      exact absurd hq (by unfold IsQuote; decide)
    have hopen : quoteStep none q = some (some q) := by
      have hq : q = apos ∨ q = quot := hq
      rw [quoteStep, if_neg hgt, if_pos hq]
    have hclose : quoteStep (some q) q = some none := by
      rw [quoteStep, if_pos rfl]
    rw [quotes_cons, hopen, Option.bind_some, quotes_append, quotes_value hv, Option.bind_some, quotes_cons, hclose]
    exact ih

theorem quotes_close {q : UInt8} {w : Bytes} (h : quotes (some q) w = some none) :
    ∃ v w', w = v ++ q :: w' ∧ q ∉ v ∧ quotes none w' = some none := by
  induction w with
  | nil => cases h
  | cons b w ih =>
    rw [quotes_cons, quoteStep, Option.bind_some] at h
    split_ifs at h with hb
    · exact ⟨[], w, by rw [hb]; rfl, List.not_mem_nil, h⟩
    · obtain ⟨v, w', rfl, hv, hw'⟩ := ih h
      exact ⟨b :: v, w', rfl, List.not_mem_cons_of_ne_of_not_mem (Ne.symm hb) hv, hw'⟩

theorem body_of_quotes {w : Bytes} (h : quotes none w = some none) : Body w := by
  induction hn : w.length using Nat.strong_induction_on generalizing w with
  | _ n ih =>
    cases w with
    | nil => exact .nil
    | cons b w =>
      rw [quotes_cons, quoteStep] at h
      by_cases hgt : b = gt
      · rw [if_pos hgt] at h
        cases h
      rw [if_neg hgt, Option.bind_some] at h
      rw [List.length_cons] at hn
      by_cases hq : b = apos ∨ b = quot
      · rw [if_pos hq] at h
        obtain ⟨v, w', rfl, hv, hw'⟩ := quotes_close h
        rw [List.length_append, List.length_cons] at hn
        exact .quoted hq hv (ih w'.length (by omega) hw' rfl)
      · rw [if_neg hq] at h
        exact .byte hgt hq (ih w.length (by omega) h rfl)

theorem body_iff {w : Bytes} : Body w ↔ quotes none w = some none := ⟨Body.quotes, body_of_quotes⟩

def openQuotes : List (Option UInt8) := [none, some apos, some quot]

theorem quotes_mem {q q' : Option UInt8} {w : Bytes} (hq : q ∈ openQuotes) (h : quotes q w = some q') :
    q' ∈ openQuotes := by
  induction w generalizing q with
  | nil => exact Option.some.inj h ▸ hq
  | cons b w ih =>
    rw [quotes_cons] at h
    obtain ⟨p, hp, h⟩ := Option.bind_eq_some_iff.mp h
    refine ih ?_ h
    cases q with
    | some c =>
      obtain rfl := Option.some.inj hp
      split_ifs
      · exact List.mem_cons_self ..
      · exact hq
    | none =>
      rw [quoteStep] at hp
      split_ifs at hp with hgt hb
      · obtain rfl := Option.some.inj hp
        rcases hb with rfl | rfl <;> decide
      · obtain rfl := Option.some.inj hp
        exact List.mem_cons_self ..

theorem nameStart_of_le {b : UInt8} (h : 97 ≤ b) : NameStart b := by
  unfold NameStart IsQuote
  simp only [slash, bang, quest, gt, apos, quot]
  refine ⟨?_, ?_, ?_, ?_, ?_⟩ <;> grind

section

variable {t : Bytes} (n : UInt8) (w : Bytes)

theorem emptyTag_of (ht : t = lt :: n :: (w ++ [slash, gt])) (hn : 97 ≤ n) (hw : quotes none w = some none) :
    EmptyTag t := ht ▸ .mk (nameStart_of_le hn) (body_of_quotes hw)

theorem openTag_of (ht : t = lt :: n :: (w ++ [gt])) (hn : 97 ≤ n) (hw : quotes none w = some none)
    (hlast : (n :: w).getLast? ≠ some slash) : OpenTag t := ht ▸ .mk (nameStart_of_le hn) (body_of_quotes hw) hlast

theorem closeTag_of (ht : t = lt :: slash :: n :: (w ++ [gt])) (hn : 97 ≤ n) (hw : quotes none w = some none)
    (hlast : (n :: w).getLast? ≠ some slash) : CloseTag t := ht ▸ .mk (nameStart_of_le hn) (body_of_quotes hw) hlast

end

/-- A tag named `stream:stream`, whether or not it is self-closing. -/
def HeaderTag (t : Bytes) : Prop :=
  ∃ w, t = bytes "<stream:stream" ++ (w ++ [gt]) ∧ w.head? = some 32 ∧ Body w

theorem quotes_name (w : Bytes) : quotes none (bytes "tream:stream" ++ w) = quotes none w := by
  have hname : quotes none (bytes "tream:stream") = some none := by decide
  rw [quotes_append, hname, Option.bind_some]

theorem streamName_eq : bytes "<stream:stream" = lt :: 115 :: bytes "tream:stream" := by decide

theorem declTag_eq : bytes "<?xml " = lt :: quest :: bytes "xml " := by decide

theorem streamTag_eq : bytes "<stream:stream " = lt :: 115 :: (bytes "tream:stream" ++ [32]) := by decide

theorem headerTag_of_body {n : UInt8} {w : Bytes} (hw : Body w)
    (hp : bytes "<stream:stream " <+: lt :: n :: (w ++ [gt])) : HeaderTag (lt :: n :: (w ++ [gt])) := by
  rw [streamTag_eq, List.cons_prefix_cons, List.cons_prefix_cons] at hp
  obtain ⟨-, rfl, r, hr⟩ := hp
  rw [List.append_assoc] at hr
  have hlast : (32 :: r).getLast? = some gt := by
    rw [← List.getLast?_append_of_ne_nil (bytes "tream:stream") (List.cons_ne_nil 32 r)]
    change (bytes "tream:stream" ++ ([32] ++ r)).getLast? = _
    rw [hr, List.getLast?_concat]
  obtain ⟨w', hw'⟩ := List.getLast?_eq_some_iff.mp hlast
  have hbody : w = bytes "tream:stream" ++ w' := by
    have hwhole : w ++ [gt] = bytes "tream:stream" ++ w' ++ [gt] := by
      rw [← hr, List.append_assoc, ← hw']
      rfl
    exact List.append_cancel_right hwhole
  refine ⟨w', ?_, ?_, ?_⟩
  · rw [hbody, streamName_eq, List.append_assoc, List.cons_append, List.cons_append]
  · cases w' with
    | nil => exact absurd (List.cons.inj hw').1 (by decide)
    | cons b w' => rw [← (List.cons.inj hw').1, List.head?_cons]
  · rw [hbody, body_iff, quotes_name] at hw
    exact body_of_quotes hw

theorem HeaderTag.opens {t : Bytes} (h : HeaderTag t) : bytes "<stream:stream " <+: t := by
  obtain ⟨w, rfl, hhead, -⟩ := h
  obtain ⟨w', rfl⟩ := List.head?_eq_some_iff.mp hhead
  rw [streamTag_eq, streamName_eq]
  exact ⟨w' ++ [gt], by simp⟩

theorem HeaderTag.unit {t : Bytes} (h : HeaderTag t) : StanzaUnit t := by
  have hprefix := h.opens
  obtain ⟨w, rfl, -, hw⟩ := h
  have hname : NameStart 115 := nameStart_of_le (by decide)
  have hbody : Body (bytes "tream:stream" ++ w) := by
    rw [body_iff, quotes_name]
    exact hw.quotes
  rw [streamName_eq, List.cons_append, List.cons_append, ← List.append_assoc] at hprefix ⊢
  by_cases hlast : (115 :: (bytes "tream:stream" ++ w)).getLast? = some slash
  · have hempty := emptyTag_of_last hname hbody hlast
    exact .element (.empty hempty) hempty.not_stream
  · exact .streamOpen ⟨.mk hname hbody hlast, hprefix⟩

theorem StanzaUnit.headerTag {u : Bytes} (h : StanzaUnit u) (hp : bytes "<stream:stream " <+: u) : HeaderTag u := by
  cases h with
  | @xmlDecl w _ =>
    rw [declTag_eq, streamTag_eq, List.cons_append, List.cons_append, List.cons_prefix_cons, List.cons_prefix_cons] at hp
    exact absurd hp.2.1 (by decide)
  | streamOpen h =>
    obtain ⟨⟨_, hw, _⟩, hp⟩ := h
    exact headerTag_of_body hw hp
  | streamClose => exact absurd hp (by decide)
  | element h hs =>
    cases h with
    | empty ht =>
      obtain ⟨_, hw⟩ := ht
      rename_i n w _
      have hbody : Body (w ++ [slash]) := hw.concat (by decide) (by unfold IsQuote; decide)
      have hsplit : w ++ [slash, gt] = w ++ [slash] ++ [gt] := List.append_cons w slash [gt]
      rw [hsplit] at hp ⊢
      exact headerTag_of_body hbody hp
    | node ho _ _ => exact absurd hp (ho.not_stream hs)

/-- `w` may stand in a header where `n` does. -/
structure Exchangeable (n w : Bytes) : Prop where
  quotes : ∀ q ∈ openQuotes, Stanza.quotes q n = Stanza.quotes q w
  blank : n.head? = some 32
  blank' : w.head? = some 32
  inside : gt ∉ n

theorem HeaderTag.replaceFirst {t n w : Bytes} (h : HeaderTag t) (hx : Exchangeable n w) :
    HeaderTag (replaceFirst t n w) := by
  by_cases hin : n <:+: t
  swap
  · rwa [replaceFirst_none fun i hi => hin ((occursAt_iff.mp hi).2.isInfix.trans (List.drop_suffix i t).isInfix)]
  obtain ⟨p, q, hpq, hat⟩ := exists_firstAt hin
  obtain ⟨n', rfl⟩ := List.head?_eq_some_iff.mp hx.blank
  obtain ⟨x, rfl, hhead, hbody⟩ := h
  rw [hpq] at hat ⊢
  rw [replaceFirst_at hat]
  -- the word begins behind the name of the tag, which has no blank
  have hname : bytes "<stream:stream" <+: p := by
    have hp : p <+: bytes "<stream:stream" ++ (x ++ [gt]) := ⟨32 :: n' ++ q, by rw [hpq, List.append_assoc]⟩
    rcases List.prefix_or_prefix_of_prefix (List.prefix_append _ _) hp with hname | ⟨r, hr⟩
    · exact hname
    cases r with
    | nil =>
      rw [List.append_nil] at hr
      exact hr ▸ List.prefix_rfl
    | cons b r =>
      rw [← hr, List.append_assoc, List.append_assoc, List.cons_append] at hpq
      have hb := (List.cons.inj (List.append_cancel_left hpq)).1
      have hmem : (32 : UInt8) ∈ bytes "<stream:stream" := by
        rw [← hr, hb]
        exact List.mem_append_right _ (List.mem_cons_self ..)
      exact absurd hmem (by decide)
  obtain ⟨p', rfl⟩ := hname
  rw [List.append_assoc, List.append_assoc, List.append_cancel_left_eq] at hpq
  -- and ends in front of the last byte
  obtain rfl | ⟨q', z, rfl⟩ := List.eq_nil_or_concat' q
  · rw [List.append_nil] at hpq
    have hmem : gt ∈ 32 :: n' := by
      have hlast := congrArg List.getLast? hpq
      rw [List.getLast?_concat, List.getLast?_append_of_ne_nil _ (List.cons_ne_nil 32 n')] at hlast
      exact List.mem_of_getLast? hlast.symm
    exact absurd hmem hx.inside
  rw [← List.append_assoc, ← List.append_assoc] at hpq
  obtain ⟨rfl, hz⟩ := List.append_inj' hpq rfl
  obtain rfl := (List.cons.inj hz).1
  refine ⟨p' ++ w ++ q', by simp, ?_, ?_⟩
  · cases p' with
    | nil =>
      obtain ⟨w', rfl⟩ := List.head?_eq_some_iff.mp hx.blank'
      rfl
    | cons b p' => exact hhead
  · rw [body_iff, quotes_append, quotes_append] at hbody ⊢
    cases hp' : quotes none p' with
    | none =>
      rw [hp'] at hbody
      cases hbody
    | some o =>
      rw [hp'] at hbody
      rw [Option.bind_some, ← hx.quotes o (quotes_mem (List.mem_cons_self ..) hp')]
      exact hbody

/-- In front of the end of the first tag only a closing tag is taken for less than it is. -/
theorem Opening.not_fault {s : Scanner} {b : UInt8} (h : Opening s) (hslash : s.part[1]? ≠ some slash) :
    ¬ s.Fault b := by
  obtain ⟨p, d, e, m⟩ := s
  obtain ⟨hshape, he⟩ := h
  dsimp only at he hslash
  subst he
  intro hf
  cases m <;> dsimp only [Scanner.Fault, Shape] at hf hshape
  case tagFirst c =>
    obtain ⟨rfl, -⟩ := hf
    obtain ⟨q, -, hin⟩ := hshape
    exact hin.not_opening
  case tag c =>
    obtain ⟨rfl, -, -⟩ := hf
    exact absurd hshape.opening.1 (by decide)
  case endStream =>
    obtain ⟨-, r, rfl⟩ := hshape
    exact hslash rfl

/-- What is read by itself up to the end of its first tag is a unit, if it does not begin with a closing tag. -/
theorem Replays.unit {u : Bytes} {e : Nat} (h : Replays u e) (hslash : u[1]? ≠ some slash)
    (hroot : ∀ o, RootTag o → ¬ o <+: u) : StanzaUnit u := by
  obtain ⟨w, b, s, rfl, htr, hd⟩ := h
  have hpart : s.part = w := htr.part
  rcases early_of_trace htr with hs | ⟨o, x, hs⟩
  swap
  · refine absurd ⟨x ++ [b], ?_⟩ (hroot o hs.toRootTag)
    rw [← hpart, hs.part, List.append_assoc]
  have hfault : ¬ s.Fault b := by
    refine hs.not_fault fun h => hslash ?_
    obtain ⟨hlt, -⟩ := List.getElem?_eq_some_iff.mp (hpart ▸ h)
    rw [List.getElem?_append_left hlt, ← hpart, h]
  have hsound := sound_dispatch hs.1 hfault
  rw [hd] at hsound
  obtain ⟨e', hm, -⟩ := hsound
  exact hm.unit

theorem RootTag.not_decl {o r : Bytes} (h : RootTag o) : ¬ bytes "<?xml " <+: o ++ r := by
  intro hp
  rw [declTag_eq] at hp
  obtain ⟨hn, -, -⟩ := h.tag
  exact hn.2.2.1 (List.cons_prefix_cons.mp (List.cons_prefix_cons.mp hp).2).1.symm

theorem Replays.unit_of_decl {u : Bytes} {e : Nat} (h : Replays u e) (hp : bytes "<?xml " <+: u) : StanzaUnit u := by
  refine h.unit (fun hslash => ?_) ?_
  · obtain ⟨r, rfl⟩ := hp
    exact absurd (Option.some.inj hslash) (by decide)
  · rintro o ho ⟨r, rfl⟩
    exact ho.not_decl hp

theorem Replays.headerTag {u : Bytes} {e : Nat} (h : Replays u e) (hp : bytes "<stream:stream " <+: u) :
    HeaderTag u := by
  have hslash : u[1]? ≠ some slash := by
    obtain ⟨r, rfl⟩ := hp
    rw [streamTag_eq]
    exact fun h => absurd (Option.some.inj h) (by decide)
  refine (h.unit hslash fun o ho => ?_).headerTag hp
  rintro ⟨r, rfl⟩
  exact ho.tag.not_stream ho.plain hp

theorem unit_or_headerTag {n : Nat} {bs u : Bytes} {e : Nat}
    (h : .ok (some (u, e)) ∈ filterNextEoft.outputs (.new n) bs) :
    (bytes "<?xml " <+: u → StanzaUnit u) ∧ (bytes "<stream:stream " <+: u → HeaderTag u) := by
  rcases replays_or_cracked h with ⟨hre, -⟩ | hcracked
  · exact ⟨hre.unit_of_decl, hre.headerTag⟩
  · obtain ⟨o, w, b, w', t, hafter, -, rfl, -⟩ := hcracked
    have hroot := hafter.toRootTag
    rw [List.append_assoc]
    exact ⟨fun hp => absurd hp hroot.not_decl, fun hp => absurd hp (hroot.tag.not_stream hroot.plain)⟩

end XmppProxy.Stanza
