import XmppProxy.Lib.XmlTag
import XmppProxy.Proxy.HeaderSend
import XmppProxy.Stanza.Replay

/-! Client or server: what `stream_preamble` takes the header for, against the default namespace that an
XML parser reads in it. -/

namespace XmppProxy

open Lib Stanza

def XmlDecl (d : Bytes) : Prop := ∃ w, gt ∉ w ∧ d = declTag ++ w ++ [gt]

theorem Stanza.Opening.xmlDecl {s : Scanner} {b : UInt8} {u : Bytes} {t : Scanner} (h : Opening s)
    (hd : s.dispatch b = .ret (.ok (some u)) t) (hu : declTag <+: u) : XmlDecl u := by
  have hl := Scanner.local_dispatch s b
  rw [hd] at hl
  obtain ⟨rfl, rfl, -⟩ := hl
  have hmode : s.mode = .xmlTag := by
    by_contra hne
    by_cases hinner : s.mode.Inner
    · obtain ⟨n, w, hn, hp, -⟩ := h.tag_of_inner hinner
      rw [hp] at hu
      exact hn.2.2.1 (List.cons_prefix_cons.mp (List.cons_prefix_cons.mp hu).2).1.symm
    obtain ⟨p, d, e, m⟩ := s
    have hshape := h.1
    unfold Scanner.dispatch at hd
    cases m <;> dsimp only [Shape, Mode.Inner] at hshape hinner hd
    case xmlTag => exact hne rfl
    case outside =>
      split_ifs at hd
      cases hd
    case stanzaFirst =>
      split_ifs at hd
      cases hd
    case question =>
      split_ifs at hd
      unfold Scanner.ifLastEquals at hd
      split_ifs at hd <;> cases hd
    case endStream =>
      obtain ⟨-, r, rfl⟩ := hshape
      exact absurd (List.cons_prefix_cons.mp (List.cons_prefix_cons.mp hu).2).1 (by decide)
    all_goals exact hinner trivial
  have hshape := h.1
  unfold Shape at hshape
  rw [hmode] at hshape
  obtain ⟨w, hp, hw, -⟩ := hshape
  exact ⟨w, hw, by rw [hp]⟩

theorem Stanza.Early.xmlDecl {s : Scanner} {b : UInt8} {u : Bytes} {t : Scanner} (h : Early s)
    (hd : s.dispatch b = .ret (.ok (some u)) t) (hu : declTag <+: u) : XmlDecl u := by
  rcases h with h | ⟨o, w, h⟩
  · exact h.xmlDecl hd hu
  · have hl := Scanner.local_dispatch s b
    rw [hd] at hl
    obtain ⟨-, rfl, -⟩ := hl
    obtain ⟨hn, -, -⟩ := h.tag
    rw [h.part] at hu
    exact absurd (List.cons_prefix_cons.mp (List.cons_prefix_cons.mp hu).2).1.symm hn.2.2.1

/-- What the filter holds was read since it was last idle. -/
def Resumed (n : Nat) (f : StanzaFilter) : Prop :=
  ∃ g s, Alike f g ∧ Refines n g s ∧ Trace (.idle 0) s.part s

theorem Stanza.Idle.resumed {n : Nat} {f : StanzaFilter} (h : Idle n f) : Resumed n f :=
  ⟨.new n, .idle 0, h.alike (idle_new n), refines_new n, .nil⟩

theorem Resumed.read {n : Nat} {f f' : StanzaFilter} {b : UInt8} {o : Option (Bytes × Nat)}
    (h : Resumed n f) (hf : f.nextEoft b = (.ok o, f')) :
    Resumed n f' ∧ ∀ buf e, o = some (buf, e) → declTag <+: buf → XmlDecl buf := by
  obtain ⟨g, s, halike, href, htr⟩ := h
  obtain ⟨hr, hg⟩ := halike.nextEoft b
  obtain ⟨hs, hg'⟩ := href.next b
  have hturn := s.turn_next n b
  rw [hf] at hr hg
  rw [← hs, ← hr] at hturn
  generalize (g.next b).2 = g' at hg hg'
  generalize (s.next n b).2 = s' at hg' hturn
  rcases o with _ | ⟨buf, e⟩
  · refine ⟨⟨g', s', hg, hg', ?_⟩, fun buf e ho => absurd ho (by simp)⟩
    cases hturn with
    | skip => exact htr
    | @push t hd _ =>
      have hpart : (t.push b).part = s.part ++ [b] := by rw [Scanner.push, Scanner.dispatch_part hd]
      exact hpart ▸ htr.concat hd
  · cases hturn with
    | emit e' _ hd _ _ =>
      have hidle : Idle n f' := ⟨hg.size.trans hg'.size, hg.cnt.trans hg'.cnt, hg.tagCnt.trans hg'.tagCnt,
        hg.state.trans hg'.state⟩
      refine ⟨hidle.resumed, fun buf' e'' ho hdecl => ?_⟩
      obtain ⟨rfl, -⟩ := Prod.mk.inj (Option.some.inj ho)
      exact (early_of_trace htr).xmlDecl hd hdecl

/-- What is known of the preamble: the header is made of declarations and the stream tag, which is what
is classified. -/
def Headed (n : Nat) : Preamble → Prop
  | .reading f streamOpen => Resumed n f ∧ ∃ decls : List Bytes, streamOpen = decls.flatten ∧
      ∀ d ∈ decls, XmlDecl d
  | .accepted _ streamOpen isC2s => ∃ (decls : List Bytes) (header : Bytes),
      streamOpen = decls.flatten ++ header ∧ (∀ d ∈ decls, XmlDecl d) ∧ streamTag <+: header ∧
        isC2s = isC2sHeader header
  | _ => True

theorem headed_step {n : Nat} {wrt : StanzaWrite} (p : Preamble)
    (poll : StanzaRead.asyncRead.Poll × WriteResult) (h : Headed n p) :
    Headed n (p.step .asyncRead wrt poll.1 poll.2).2 := by
  obtain ⟨poll, res⟩ := poll
  cases p with
  | accepted f streamOpen isC2s => exact h
  | failed f e => exact h
  | panicked f => exact h
  | reading f streamOpen =>
    obtain ⟨hf, decls, rfl, hd⟩ := h
    have hpolled := bytesPolled f poll
    have heq : StanzaRead.asyncRead.poll wrt f poll res = StanzaRead.pollBytes f poll := rfl
    unfold Preamble.step
    dsimp only
    rw [heq]
    generalize StanzaRead.pollBytes f poll = polled at hpolled
    cases hpolled with
    | pending => exact ⟨hf, decls, rfl, hd⟩
    | more _ hn => exact ⟨(hf.read hn).1, decls, rfl, hd⟩
    | @stanza b buf e f' _ hn =>
      obtain ⟨hf', hdecl⟩ := hf.read hn
      dsimp only
      by_cases hx : declTag <+: buf
      · rw [if_pos hx]
        refine ⟨hf', decls ++ [buf], ?_, fun d hd' => ?_⟩
        · rw [List.flatten_append, List.flatten_singleton]
        · rcases List.mem_append.mp hd' with hd' | hd'
          · exact hd d hd'
          · exact List.mem_singleton.mp hd' ▸ hdecl buf e rfl hx
      rw [if_neg hx]
      by_cases hh : streamTag <+: buf
      · rw [if_pos hh]
        exact ⟨decls, buf, rfl, hd, hh, rfl⟩
      · rw [if_neg hh]
        trivial
    | _ => trivial

theorem headed_run {n : Nat} (wrt : StanzaWrite) {f : StanzaFilter} (hf : Idle n f)
    (polls : List (StanzaRead.asyncRead.Poll × WriteResult)) :
    Headed n ((streamPreamble .asyncRead wrt).final (.reading f []) polls) := by
  have hstart : Headed n (.reading f []) := ⟨hf.resumed, [], rfl, fun _ hd => absurd hd List.not_mem_nil⟩
  exact Machine.invariant (m := streamPreamble .asyncRead wrt) headed_step hstart polls

theorem header_unique {decls decls' : List Bytes} {header header' : Bytes}
    (hd : ∀ d ∈ decls, XmlDecl d) (hd' : ∀ d ∈ decls', XmlDecl d) (hh : streamTag <+: header)
    (hh' : streamTag <+: header') (h : decls.flatten ++ header = decls'.flatten ++ header') :
    header = header' := by
  have hnot : ∀ {d x y : Bytes}, XmlDecl d → streamTag <+: y → d ++ x = y → False := by
    rintro d x y ⟨w, -, rfl⟩ hy rfl
    exact absurd (List.cons_prefix_cons.mp (List.cons_prefix_cons.mp hy).2).1 (by decide)
  induction decls generalizing decls' with
  | nil =>
    cases decls' with
    | nil => exact h
    | cons d' ds' =>
      rw [List.flatten_cons, List.append_assoc] at h
      exact (hnot (hd' d' (List.mem_cons_self ..)) hh h.symm).elim
  | cons d ds ih =>
    cases decls' with
    | nil =>
      rw [List.flatten_cons, List.append_assoc] at h
      exact (hnot (hd d (List.mem_cons_self ..)) hh' h).elim
    | cons d' ds' =>
      obtain ⟨w, hw, hdw⟩ := hd d (List.mem_cons_self ..)
      obtain ⟨w', hw', hdw'⟩ := hd' d' (List.mem_cons_self ..)
      have heq : w ++ gt :: (ds.flatten ++ header) = w' ++ gt :: (ds'.flatten ++ header') := by
        rw [List.flatten_cons, List.flatten_cons, hdw, hdw'] at h
        simpa using h
      obtain ⟨-, hrest⟩ := split_run (p := (· ≠ gt)) (fun b hb he => hw (he ▸ hb))
        (fun b hb he => hw' (he ▸ hb)) (by simp) (by simp) heq
      exact ih (fun e he => hd e (List.mem_cons_of_mem _ he))
        (fun e he => hd' e (List.mem_cons_of_mem _ he)) (List.cons.inj hrest).2

theorem accepted_header {n : Nat} {wrt : StanzaWrite} {f f' : StanzaFilter} (hf : Idle n f)
    {polls : List (StanzaRead.asyncRead.Poll × WriteResult)} {streamOpen : Bytes} {isC2s : Bool}
    (hrun : (streamPreamble .asyncRead wrt).final (.reading f []) polls = .accepted f' streamOpen isC2s)
    {decls : List Bytes} (hd : ∀ d ∈ decls, XmlDecl d) {header : Bytes} (hh : streamTag <+: header)
    (hopen : streamOpen = decls.flatten ++ header) : isC2s = isC2sHeader header := by
  have hrun' := headed_run wrt hf polls
  rw [hrun] at hrun'
  obtain ⟨decls', header', hopen', hd', hh', hc⟩ := hrun'
  rw [hc, header_unique hd hd' hh hh' (hopen.symm.trans hopen')]

/-- An attribute ` xmlns="jabber:client"`, in either quote, behind a blank and without white space
around the `=`. -/
def SpelledClient (a : Xml.Attr) : Prop :=
  (∃ q, a.Spells (bytes "xmlns") q) ∧ a.raw = jabberClient

def HoldsClient (a : Xml.Attr) : Prop :=
  bytes " xmlns=\"jabber:client\"" <:+: a.raw ∨ bytes " xmlns='jabber:client'" <:+: a.raw

theorem clientAttribute (tag : Xml.Tag) {q : UInt8} (hq : Xml.isQuote q) :
    Xml.opening (bytes "xmlns") q ++ (jabberClient ++ [q]) <:+: tag.text ↔
      ∃ a ∈ tag.attrs, a.Spells (bytes "xmlns") q ∧ a.raw = jabberClient ∨
        Xml.opening (bytes "xmlns") q ++ (jabberClient ++ [q]) <:+: a.raw :=
  Xml.Tag.attribute_text (by decide) hq (by decide) ⟨_, _, rfl, by decide⟩

theorem isC2sHeader_iff (tag : Xml.Tag) :
    isC2sHeader tag.text = true ↔ ∃ a ∈ tag.attrs, SpelledClient a ∨ HoldsClient a := by
  have hdouble := clientAttribute tag (q := quot) (by decide)
  have hsingle := clientAttribute tag (q := apos) (by decide)
  unfold isC2sHeader
  rw [Bool.or_eq_true, containsSeq_iff, containsSeq_iff]
  constructor
  · rintro (h | h)
    · obtain ⟨a, ha, ⟨hs, hraw⟩ | hin⟩ := hdouble.mp h
      · exact ⟨a, ha, .inl ⟨⟨quot, hs⟩, hraw⟩⟩
      · exact ⟨a, ha, .inr (.inl hin)⟩
    · obtain ⟨a, ha, ⟨hs, hraw⟩ | hin⟩ := hsingle.mp h
      · exact ⟨a, ha, .inl ⟨⟨apos, hs⟩, hraw⟩⟩
      · exact ⟨a, ha, .inr (.inr hin)⟩
  · rintro ⟨a, ha, ⟨⟨q, hs⟩, hraw⟩ | hin | hin⟩
    · have hq := a.quote_ok
      rw [hs.quote] at hq
      simp only [Xml.isQuote, Bool.or_eq_true, decide_eq_true_eq] at hq
      rcases hq with rfl | rfl
      · exact .inr (hsingle.mpr ⟨a, ha, .inl ⟨hs, hraw⟩⟩)
      · exact .inl (hdouble.mpr ⟨a, ha, .inl ⟨hs, hraw⟩⟩)
    · exact .inl (hdouble.mpr ⟨a, ha, .inr hin⟩)
    · exact .inr (hsingle.mpr ⟨a, ha, .inr hin⟩)

theorem spelledClient_reads {a : Xml.Attr} (h : SpelledClient a) :
    a.name = bytes "xmlns" ∧ a.read = jabberClient := by
  obtain ⟨⟨q, hs⟩, hraw⟩ := h
  refine ⟨hs.name, (a.read_eq_raw ?_ ?_).trans hraw⟩
  · rw [hraw]
    decide
  · rw [hraw]
    decide

def StreamHeader (streamOpen : Bytes) (tag : Xml.Tag) : Prop :=
  streamTag <+: tag.text ∧ ∃ decls : List Bytes, (∀ d ∈ decls, XmlDecl d) ∧
    streamOpen = decls.flatten ++ tag.text

theorem StreamHeader.isC2s {n : Nat} {wrt : StanzaWrite} {f f' : StanzaFilter} (hf : Idle n f)
    {polls : List (StanzaRead.asyncRead.Poll × WriteResult)} {streamOpen : Bytes} {isC2s : Bool}
    (hrun : (streamPreamble .asyncRead wrt).final (.reading f []) polls = .accepted f' streamOpen isC2s)
    {tag : Xml.Tag} (ht : StreamHeader streamOpen tag) :
    isC2s = true ↔ ∃ a ∈ tag.attrs, SpelledClient a ∨ HoldsClient a := by
  obtain ⟨hh, decls, hd, hopen⟩ := ht
  rw [accepted_header hf hrun hd hh hopen]
  exact isC2sHeader_iff tag

/-- A header of a client is taken for one where its `xmlns` is spelled so or a value holds the spelling,
and any other header is not taken for one where no value holds it. -/
theorem client_iff (n : Nat) (wrt : StanzaWrite) {f f' : StanzaFilter} (hf : Idle n f)
    (polls : List (StanzaRead.asyncRead.Poll × WriteResult)) (streamOpen : Bytes) (isC2s : Bool)
    (hrun : (streamPreamble .asyncRead wrt).final (.reading f []) polls = .accepted f' streamOpen isC2s)
    (tag : Xml.Tag) (ht : StreamHeader streamOpen tag) :
    (isC2s = true ↔ tag.Reads (bytes "xmlns") jabberClient) ↔
      (tag.Reads (bytes "xmlns") jabberClient → ∃ a ∈ tag.attrs, SpelledClient a ∨ HoldsClient a) ∧
        (¬ tag.Reads (bytes "xmlns") jabberClient → ∀ a ∈ tag.attrs, ¬ HoldsClient a) := by
  rw [ht.isC2s hf hrun]
  constructor
  · intro h
    exact ⟨h.mpr, fun hnot a ha hholds => hnot (h.mp ⟨a, ha, .inr hholds⟩)⟩
  · rintro ⟨hspelled, hholds⟩
    refine ⟨fun ⟨a, ha, hcase⟩ => ?_, hspelled⟩
    rcases hcase with hs | hin
    · exact ⟨a, ha, spelledClient_reads hs⟩
    · by_contra hnot
      exact hholds hnot a ha hin

/-- `<stream:stream a=' xmlns="jabber:client"' xmlns='jabber:server'>` -/
def decoyTag : Xml.Tag :=
  .ofPlain (bytes "stream:stream")
    [⟨[32], bytes "a", apos, bytes " xmlns=\"jabber:client\""⟩, ⟨[32], bytes "xmlns", apos, bytes "jabber:server"⟩]
    false (by decide)

/-- `<stream:stream to='a'` and, on the next line, `xmlns='jabber:client'>` -/
def brokenTag : Xml.Tag :=
  .ofPlain (bytes "stream:stream") [⟨[32], bytes "to", apos, bytes "a"⟩, ⟨[10], bytes "xmlns", apos, jabberClient⟩]
    false (by decide)

theorem client_iff_broken : (false = true ↔ brokenTag.Reads (bytes "xmlns") jabberClient) ↔
    (brokenTag.Reads (bytes "xmlns") jabberClient →
      ∃ a ∈ brokenTag.attrs, SpelledClient a ∨ HoldsClient a) ∧
    (¬ brokenTag.Reads (bytes "xmlns") jabberClient → ∀ a ∈ brokenTag.attrs, ¬ HoldsClient a) :=
  client_iff 64 .asyncWrite (idle_new 64)
    (arriving (bytes "<stream:stream to='a'\nxmlns='jabber:client'>"))
    (bytes "<stream:stream to='a'\nxmlns='jabber:client'>") false rfl brokenTag
    ⟨by decide, [], fun d hd => absurd hd List.not_mem_nil, by decide⟩

set_option maxRecDepth 2000 in
/-- The header of a server is taken for one of a client, so that no certificate is asked for. -/
theorem server_taken_for_client :
    ¬ ∀ (n : Nat) (wrt : StanzaWrite) (f f' : StanzaFilter) (polls : List (BytePoll × WriteResult))
      (streamOpen : Bytes) (isC2s : Bool) (tag : Xml.Tag), Idle n f →
      (streamPreamble .asyncRead wrt).final (.reading f []) polls = .accepted f' streamOpen isC2s →
      StreamHeader streamOpen tag → tag.WellFormed →
        (isC2s = true ↔ tag.Reads (bytes "xmlns") jabberClient) := by
  intro h
  have hclient := h 128 .asyncWrite (.new 128) _ (arriving decoyTag.text) decoyTag.text true decoyTag
    (idle_new 128) rfl ⟨by decide, [], fun d hd => absurd hd List.not_mem_nil, rfl⟩ (by decide)
  exact absurd (hclient.mp rfl) (by decide)

end XmppProxy
