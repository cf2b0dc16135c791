import XmppProxy.Proxy.RoundTrip
import XmppProxy.Stanza.Lockstep

/-! What `to_ws_new` makes of an element is one stanza again, and is left alone the second time. -/

namespace XmppProxy

open Lib Stanza

theorem NsDeclarations.body {ins : Bytes} (h : NsDeclarations ins) :
    Body ins ∧ (ins = [] ∨ ins.getLast? = some apos) := by
  have hattr : ∀ name value : Bytes, (∀ b ∈ name, b ≠ gt ∧ ¬ IsQuote b) → apos ∉ value →
      Body (name ++ apos :: (value ++ [apos])) := fun name value hn hv =>
    (body_of_plain hn).append (.quoted (.inl rfl) hv .nil)
  have hplain : ∀ b ∈ bytes " xmlns=" ++ bytes " xmlns:stream=", b ≠ gt ∧ ¬ IsQuote b := by
    unfold IsQuote
    decide
  have hclient := hattr (bytes " xmlns=") jabberClient (fun b hb => hplain b (List.mem_append_left _ hb))
    (by decide)
  have hserver := hattr (bytes " xmlns=") jabberServer (fun b hb => hplain b (List.mem_append_left _ hb))
    (by decide)
  have hstream := hattr (bytes " xmlns:stream=") (bytes "http://etherx.jabber.org/streams")
    (fun b hb => hplain b (List.mem_append_right _ hb)) (by decide)
  obtain ⟨a, ha, b, hb, rfl⟩ := h
  simp only [List.mem_cons, List.not_mem_nil, or_false] at ha hb
  have hab : Body a := by
    rcases ha with rfl | rfl | rfl
    · exact .nil
    · exact hclient
    · exact hserver
  rcases hb with rfl | rfl
  · rw [List.append_nil]
    refine ⟨hab, ?_⟩
    rcases ha with rfl | rfl | rfl <;> decide
  · refine ⟨hab.append hstream, .inr ?_⟩
    rcases ha with rfl | rfl | rfl <;> decide

theorem NsDeclarations.valid {ins : Bytes} (h : NsDeclarations ins) : Utf8.Valid ins := by
  obtain ⟨a, ha, b, hb, rfl⟩ := h
  have hparts : (∀ a ∈ [[], bytes " xmlns='jabber:client'", bytes " xmlns='jabber:server'"], Utf8.Valid a) ∧
      ∀ b ∈ [[], bytes " xmlns:stream='http://etherx.jabber.org/streams'"], Utf8.Valid b := by
    decide
  exact (hparts.1 a ha).append (hparts.2 b hb)

theorem containsSeq_left {p u : Bytes} (v : Bytes) (h : containsSeq u p) : containsSeq (u ++ v) p := by
  rw [containsSeq_iff] at h ⊢
  exact h.trans (List.prefix_append u v).isInfix

theorem containsSeq_right {p v : Bytes} (u : Bytes) (h : p <:+: v) : containsSeq (u ++ v) p := by
  rw [containsSeq_iff]
  exact h.trans (List.suffix_append u v).isInfix

theorem hasXmlns_twice (head : Bytes) (isC2s : Bool) : hasXmlns (head ++ missing head isC2s) := by
  unfold hasXmlns
  rw [Bool.or_eq_true]
  by_cases h : hasXmlns head = true
  · unfold hasXmlns at h
    rw [Bool.or_eq_true] at h
    exact h.imp (containsSeq_left _) (containsSeq_left _)
  · refine .inl (containsSeq_right head ?_)
    unfold missing
    rw [if_neg h]
    refine List.IsInfix.trans ?_ (List.prefix_append _ _).isInfix
    cases isC2s <;> decide

/-- `stream:` does not stand across the blank in front of a declaration. -/
theorem hasXmlnsStream_twice (head : Bytes) (isC2s : Bool) :
    hasXmlnsStream (head ++ missing head isC2s) := by
  by_cases h : hasXmlnsStream head = true
  swap
  · unfold hasXmlnsStream
    rw [Bool.or_eq_true, Bool.or_eq_true]
    refine .inr (.inl (containsSeq_right head ?_))
    unfold missing
    rw [if_neg h]
    exact List.IsInfix.trans (by decide) (List.suffix_append _ _).isInfix
  by_cases hseq : containsSeq head (bytes "stream:") = true
  · unfold hasXmlnsStream at h ⊢
    rw [hseq, Bool.not_true, Bool.false_or, Bool.or_eq_true] at h
    rw [Bool.or_eq_true, Bool.or_eq_true]
    exact .inr (h.imp (containsSeq_left _) (containsSeq_left _))
  have hmissing : missing head isC2s = [] ∨ ∃ r, missing head isC2s = 32 :: r ∧ ¬ bytes "stream:" <:+: r := by
    unfold missing
    rw [if_pos h, List.append_nil]
    cases hasXmlns head
    · cases isC2s
      · exact .inr ⟨_, rfl, by decide⟩
      · exact .inr ⟨_, rfl, by decide⟩
    · exact .inl rfl
  have hnot : ¬ containsSeq (head ++ missing head isC2s) (bytes "stream:") = true := by
    rw [containsSeq_iff] at hseq ⊢
    rcases hmissing with hm | ⟨r, hm, hr⟩
    · rwa [hm, List.append_nil]
    · rw [hm]
      intro hin
      exact (infix_split (by decide) hin).elim hseq hr
  unfold hasXmlnsStream
  rw [Bool.not_eq_true] at hnot
  rw [hnot, Bool.not_false, Bool.true_or]

theorem missing_twice (head : Bytes) (isC2s : Bool) : missing (head ++ missing head isC2s) isC2s = [] :=
  missing_eq_nil.mpr ⟨hasXmlns_twice head isC2s, hasXmlnsStream_twice head isC2s⟩

/-- The first tag of `s` ends at the index `e`, in a `>` or a `/>` behind `k` bytes. -/
def FirstTagEnds (s : Bytes) (e k : Nat) : Prop :=
  OpenTag (s.take (e + 1)) ∧ k = e ∨ EmptyTag (s.take (e + 1)) ∧ k + 1 = e

/-- What `to_ws_new` makes of `s` is `s` with one run of bytes put in at the end of the first tag. A new
filter emits it, and nothing else, with the mark moved as far; it stays as it is the second time. -/
def OneStanza (s : Bytes) (e : Nat) (isC2s : Bool) : Prop :=
  ∃ r ins k, toWsNew s e isC2s = .ok r ∧ FirstTagEnds s e k ∧ r = s.take k ++ ins ++ s.drop k ∧
    (∀ n, r.length ≤ n →
      filterNextEoft.outputs (.new n) r = List.replicate (r.length - 1) (.ok none) ++
        [.ok (some (r, e + (r.length - s.length)))] ∧
      Idle n (filterNextEoft.final (.new n) r)) ∧
    toWsNew r (e + (r.length - s.length)) isC2s = .ok r

def Stops (n : UInt8) (w stop : Bytes) : Prop :=
  stop = [slash, gt] ∨ stop = [gt] ∧ (n :: w).getLast? ≠ some slash

section

variable {n : UInt8} {w stop rest : Bytes}

theorem Stops.head (h : Stops n w stop) : ∃ c r, endsName c ∧ c < 0x80 ∧ stop = c :: r := by
  rcases h with rfl | ⟨rfl, -⟩
  · exact ⟨slash, [gt], by decide, by decide, rfl⟩
  · exact ⟨gt, [], by decide, by decide, rfl⟩

theorem Stops.insert (h : Stops n w stop) {ins : Bytes} (hins : NsDeclarations ins) :
    Stops n (w ++ ins) stop := by
  rcases h with rfl | ⟨rfl, hl⟩
  · exact .inl rfl
  · refine .inr ⟨rfl, ?_⟩
    rcases hins.body.2 with rfl | hlast
    · rwa [List.append_nil]
    · rw [← List.cons_append, List.getLast?_append, hlast, Option.some_or]
      decide

theorem Stops.tag (h : Stops n w stop) (hn : NameStart n) (hw : Body w) :
    stop = [slash, gt] ∧ EmptyTag (lt :: n :: w ++ stop) ∨ stop = [gt] ∧ OpenTag (lt :: n :: w ++ stop) := by
  rcases h with rfl | ⟨rfl, hl⟩
  · exact .inl ⟨rfl, .mk hn hw⟩
  · exact .inr ⟨rfl, .mk hn hw hl⟩

theorem Stops.ends (h : Stops n w stop) (hn : NameStart n) (hw : Body w) (rest : Bytes) :
    FirstTagEnds (lt :: n :: w ++ (stop ++ rest)) ((lt :: n :: w ++ stop).length - 1)
      (lt :: n :: w).length := by
  have htake : (lt :: n :: w ++ (stop ++ rest)).take ((lt :: n :: w ++ stop).length - 1 + 1) =
      lt :: n :: w ++ stop := by
    have hpos : 0 < (lt :: n :: w ++ stop).length := Nat.succ_pos _
    rw [← List.append_assoc, Nat.sub_add_cancel hpos, List.take_left]
  unfold FirstTagEnds
  rw [htake]
  rcases h.tag hn hw with ⟨rfl, ht⟩ | ⟨rfl, ht⟩
  · exact .inr ⟨ht, by simp⟩
  · exact .inl ⟨ht, by simp⟩

theorem Stops.rootName_eq (h : Stops n w stop) {ins : Bytes} (hins : NsDeclarations ins) (rest : Bytes) :
    rootName (lt :: n :: (w ++ ins) ++ (stop ++ rest)) = rootName (lt :: n :: w ++ (stop ++ rest)) := by
  obtain ⟨c, r, hc, -, rfl⟩ := h.head
  exact rootName_insert (List.cons_ne_nil lt (n :: w)) hc hins (r ++ rest)

theorem Stops.root (h : Stops n w stop) (hn : NameStart n) (hw : Body w)
    (hname : rootName (lt :: n :: w ++ (stop ++ rest)) ≠ bytes "stream:stream")
    (hroot : RootTag (lt :: n :: w ++ stop)) {ins : Bytes} (hins : NsDeclarations ins) :
    RootTag (lt :: n :: (w ++ ins) ++ stop) := by
  refine ⟨?_, fun hs => ?_⟩
  · rcases (h.insert hins).tag hn (hw.append hins.body.1) with ⟨rfl, -⟩ | ⟨-, ht⟩
    · exact absurd hroot.tag (EmptyTag.not_open (.mk hn hw))
    · exact ht
  · rw [← h.rootName_eq hins] at hname
    refine not_streamTag hname (hs.2.trans ?_)
    rw [← List.append_assoc]
    exact List.prefix_append _ _

theorem toWsNew_twice (isC2s : Bool) (hn : NameStart n) (h : Stops n w stop)
    (hname : rootName (lt :: n :: w ++ (stop ++ rest)) ≠ bytes "stream:stream")
    (hv : Utf8.Valid (lt :: n :: w ++ (stop ++ rest))) {r : Bytes}
    (hr : r = lt :: n :: w ++ missing (lt :: n :: w) isC2s ++ (stop ++ rest)) :
    toWsNew (lt :: n :: w ++ (stop ++ rest)) ((lt :: n :: w ++ stop).length - 1) isC2s = .ok r ∧
      toWsNew r ((lt :: n :: (w ++ missing (lt :: n :: w) isC2s) ++ stop).length - 1) isC2s = .ok r := by
  have hins := missing_declarations (lt :: n :: w) isC2s
  have hcut : Utf8.Valid (lt :: n :: w) ∧ Utf8.Valid (stop ++ rest) := by
    obtain ⟨c, t, -, hasc, rfl⟩ := h.head
    exact hv.cut hasc
  have hhead : Utf8.Valid (lt :: n :: (w ++ missing (lt :: n :: w) isC2s)) :=
    hcut.1.append hins.valid
  subst hr
  refine ⟨(toWsNew_tag hn h (not_streamTag hname) isC2s).trans (addXmlns_valid hcut.1 hcut.2 isC2s), ?_⟩
  rw [← h.rootName_eq hins] at hname
  refine (toWsNew_tag hn (h.insert hins) (not_streamTag hname) isC2s).trans ?_
  have hnil : missing (lt :: n :: (w ++ missing (lt :: n :: w) isC2s)) isC2s = [] :=
    missing_twice (lt :: n :: w) isC2s
  rw [addXmlns_valid hhead hcut.2 isC2s, hnil, List.append_nil]
  rfl

end

theorem outputs_new (n : Nat) (bs : Bytes) :
    filterNextEoft.outputs (.new n) bs = (scanNextEoft n).outputs (.idle 0) bs :=
  (filterNextEoft_refines n).outputs_eq (refines_new n) bs

theorem Stanza.Replays.emitted {u : Bytes} {e : Nat} (h : Replays u e) (n : Nat) (hn : u.length ≤ n) :
    filterNextEoft.outputs (.new n) u =
        List.replicate (u.length - 1) (.ok none) ++ [.ok (some (u, e))] ∧
      Idle n (filterNextEoft.final (.new n) u) := by
  obtain ⟨ho, hf⟩ := h.run hn
  have hr := (filterNextEoft_refines n).final (refines_new n) u
  rw [hf] at hr
  exact ⟨(outputs_new n u).trans ho, hr.size, hr.cnt, hr.tagCnt, hr.state⟩

theorem oneStanza_of_replays {s : Bytes} {e : Nat} (h : Replays s e) (hv : Utf8.Valid s)
    (hclose : s[1]? ≠ some slash) (hdecl : s[1]? ≠ some quest)
    (hname : rootName s ≠ bytes "stream:stream") (isC2s : Bool) : OneStanza s e isC2s := by
  have hs : ¬ StreamOpen s := fun h => not_streamTag hname h.2
  obtain ⟨first, rest, rfl, rfl, hkind⟩ := h.retag hclose hdecl hs
  obtain ⟨n, w, stop, hn, hw, rfl, hstop⟩ := tag_cut (hkind.imp And.left (·.1.tag))
  have hstops : Stops n w stop := hstop.imp And.left fun h => ⟨h.1, h.2.1⟩
  have hins := missing_declarations (lt :: n :: w) isC2s
  rw [List.append_assoc] at hv hname ⊢
  obtain ⟨hto, htwice⟩ := toWsNew_twice isC2s hn hstops hname hv rfl
  generalize missing (lt :: n :: w) isC2s = ins at hins hto htwice
  have hre : Replays (lt :: n :: w ++ ins ++ (stop ++ rest)) ((lt :: n :: (w ++ ins) ++ stop).length - 1) := by
    have heq : lt :: n :: w ++ ins ++ (stop ++ rest) = lt :: n :: (w ++ ins) ++ stop ++ rest := by
      simp only [List.cons_append, List.append_assoc]
    rw [heq]
    rcases hkind with ⟨hempty, rfl⟩ | ⟨hroot, hre⟩
    · obtain ⟨rfl, -⟩ := hstop.resolve_right fun h => hempty.not_open h.2.2
      rw [List.append_nil]
      exact EmptyTag.replays (.mk hn (hw.append hins.body.1))
    · exact hre _ (hstops.root hn hw hname hroot hins)
  have hmark : (lt :: n :: (w ++ ins) ++ stop).length - 1 = (lt :: n :: w ++ stop).length - 1 +
      ((lt :: n :: w ++ ins ++ (stop ++ rest)).length - (lt :: n :: w ++ (stop ++ rest)).length) := by
    simp only [List.length_append, List.length_cons]
    omega
  rw [hmark] at hre htwice
  refine ⟨_, ins, (lt :: n :: w).length, hto, hstops.ends hn hw rest, ?_, fun N hN => hre.emitted N hN, htwice⟩
  rw [List.take_left, List.drop_left]

/-- A stanza that gets stuck when it is read again does so behind the declarations. -/
theorem not_oneStanza_of_cracked {s : Bytes} {e : Nat} (h : Cracked s e)
    (hname : rootName s ≠ bytes "stream:stream") (isC2s : Bool) : ¬ OneStanza s e isC2s := by
  rintro ⟨r, -, -, hto, -, -, hread, -⟩
  obtain ⟨first, rest, rfl, rfl, hroot, hre⟩ := h.retag
  obtain ⟨n, w, stop, hn, hw, rfl, hstop⟩ := tag_cut (.inr hroot.tag)
  have hstops : Stops n w stop := hstop.imp And.left fun h => ⟨h.1, h.2.1⟩
  have hins := missing_declarations (lt :: n :: w) isC2s
  rw [List.append_assoc] at hto hname
  rw [toWsNew_tag hn hstops (not_streamTag hname)] at hto
  have hr := addXmlns_eq_ok hto
  rw [List.take_left, List.drop_left] at hr
  generalize missing (lt :: n :: w) isC2s = ins at hins hr
  have hcracked := hre _ (hstops.root hn hw hname hroot hins)
  have heq : lt :: n :: (w ++ ins) ++ stop ++ rest = r := by
    rw [hr]
    simp only [List.cons_append, List.append_assoc]
  rw [heq] at hcracked
  obtain ⟨err, herr⟩ := hcracked.refused (Nat.le_refl r.length)
  rw [← outputs_new, (hread r.length (Nat.le_refl _)).1] at herr
  rcases List.mem_append.mp herr with herr | herr
  · cases List.eq_of_mem_replicate herr
  · cases List.mem_singleton.mp herr

/-- An element that a new filter emits from a UTF-8 stream, past errors too, is made one stanza exactly
when a filter can read it by itself. -/
theorem one_stanza_iff (n : Nat) (bs s : Bytes) (e : Nat) (isC2s : Bool) (hbs : Utf8.Valid bs)
    (h : Emits n bs s e) (hclose : s[1]? ≠ some slash) (hdecl : s[1]? ≠ some quest)
    (hname : rootName s ≠ bytes "stream:stream") :
    OneStanza s e isC2s ↔ ∀ o ∈ filterNextEoft.outputs (.new s.length) s, o.isOk := by
  rcases replays_or_cracked h with ⟨hre, hv⟩ | hcracked
  · refine ⟨fun _ o ho => ?_, fun _ => oneStanza_of_replays hre (hv hbs) hclose hdecl hname isC2s⟩
    rw [(hre.emitted s.length (Nat.le_refl _)).1] at ho
    rcases List.mem_append.mp ho with ho | ho
    · rw [List.eq_of_mem_replicate ho]
      rfl
    · rw [List.mem_singleton.mp ho]
      rfl
  -- an error has taken a byte out of it: it is refused where that byte is missing
  · refine ⟨fun ho => absurd ho (not_oneStanza_of_cracked hcracked hname isC2s), fun hok => ?_⟩
    obtain ⟨err, herr⟩ := hcracked.refused (Nat.le_refl s.length)
    rw [← outputs_new] at herr
    exact absurd (hok _ herr) (by simp [Outcome.isOk])

theorem one_stanza_iff_quoted : OneStanza (bytes "<a b='/>'/>") 10 true ↔
    ∀ o ∈ filterNextEoft.outputs (.new 11) (bytes "<a b='/>'/>"), o.isOk :=
  one_stanza_iff 16 (bytes " <a b='/>'/>") (bytes "<a b='/>'/>") 10 true (by decide)
    (by unfold Emits; decide) (by decide) (by decide) (by decide)

/-- Behind the error that `<![CDATA[` meets in a closing tag the filter is inside of the section, and
goes on with the `[` missing. -/
theorem not_one_stanza : ¬ ∀ n bs s e isC2s, Utf8.Valid bs → Emits n bs s e → s[1]? ≠ some slash →
    s[1]? ≠ some quest → rootName s ≠ bytes "stream:stream" → OneStanza s e isC2s := by
  intro h
  obtain ⟨r, -, -, hto, -, -, hread, -⟩ := h 32 (bytes "<a><//![CDATA[]]><x/>")
    (bytes "<a></![CDATA]]><x/>") 2 true (by decide) (by unfold Emits; decide) (by decide) (by decide)
    (by decide)
  have hr : toWsNew (bytes "<a></![CDATA]]><x/>") 2 true =
      .ok (bytes "<a xmlns='jabber:client'></![CDATA]]><x/>") := by decide
  obtain rfl := Outcome.ok.inj (hr.symm.trans hto)
  exact absurd (hread 41 (by decide)).1 (by decide)

end XmppProxy
