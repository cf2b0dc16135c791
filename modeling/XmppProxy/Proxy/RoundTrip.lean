import XmppProxy.Model.InOut
import XmppProxy.Stanza.Emission

/-! A stanza that goes through WebSocket framing and back. -/

namespace XmppProxy

open Lib Stanza

abbrev streamTag : Bytes := bytes "<stream:stream "
abbrev openTag : Bytes := bytes "<open "
abbrev jabberServer : Bytes := bytes "jabber:server"
abbrev jabberClient : Bytes := bytes "jabber:client"
abbrev framing : Bytes := bytes "urn:ietf:params:xml:ns:xmpp-framing"
abbrev framingServer : Bytes := bytes "urn:ietf:params:xml:ns:xmpp-framing-server"

def openFrame (s : Bytes) : Bytes :=
  replaceSymbol gt (bytes "/>") (replaceAll jabberClient framing
    (replaceAll jabberServer framingServer (replaceAll streamTag openTag s)))

theorem client_server_frames {s : Bytes} (h : ¬ bytes "jabber:client-server" <:+: s) :
    ¬ bytes "jabber:client-server" <:+: replaceAll jabberServer framingServer s :=
  mt (infix_of_replaceAll (by decide) (by decide) (by decide)) h

/-- The name of the server framing ends in `-server` behind the name of the client framing: the two
are told apart as long as no `jabber:client` has that behind it. -/
theorem server_frame_inv {s : Bytes} (hf : ¬ framing <:+: s)
    (hcs : ¬ bytes "jabber:client-server" <:+: s) :
    replaceAll framingServer jabberServer
        (replaceAll jabberClient framing (replaceAll jabberServer framingServer s)) =
      replaceAll jabberClient framing s := by
  have hpre : framing <:+: framingServer := ⟨[], bytes "-server", rfl⟩
  have hfs : ¬ framingServer <:+: s := fun h => hf (hpre.trans h)
  rw [replaceAll_comm (by decide) (by decide) (by decide) (by decide) (by decide) (by decide)
    (by decide) (by decide) (by decide), replaceAll_inv (by decide) (by decide) (by decide) hfs]
  intro s' hs' hp
  have hrest : bytes "-server" <+: replaceAll jabberClient framing s' :=
    (List.prefix_append_right_inj framing).mp hp
  have hrest' := prefix_of_replaceAll (by decide) (by decide) hrest
  refine client_server_frames hcs (List.IsInfix.trans ?_ hs'.isInfix)
  exact (List.prefix_append_right_inj jabberClient).mpr hrest' |>.isInfix

theorem openFrame_isPrefix {s : Bytes} (hpre : streamTag <+: s) : openTag <+: openFrame s := by
  obtain ⟨r, rfl⟩ := hpre
  unfold openFrame
  rw [replaceAll_hit (by decide), replaceAll_append (by decide), replaceAll_append (by decide),
    replaceSymbol_append, replaceSymbol_of_not_mem (by decide)]
  exact List.prefix_append _ _

theorem replaceAll_closed {p q : Bytes} (hp : p ≠ []) (h : ∀ a ∈ p, a ∉ bytes "/>") (hq : gt ∉ q)
    (s : Bytes) :
    replaceAll p q (replaceSymbol gt (bytes "/>") s) = replaceSymbol gt (bytes "/>") (replaceAll p q s) :=
  replaceAll_symbol hp (by decide) h (fun hg => h gt hg (by decide)) hq

theorem fromWs_openFrame {s : Bytes} (hpre : streamTag <+: s) (hns : bytes "xmlns:stream=" <:+: s)
    (ho : ¬ openTag <:+: s) (hf : ¬ framing <:+: s) (hcs : ¬ bytes "jabber:client-server" <:+: s) :
    fromWs (openFrame s) = s := by
  have htag : replaceAll openTag streamTag (openFrame s) = replaceSymbol gt (bytes "/>")
      (replaceAll jabberClient framing (replaceAll jabberServer framingServer s)) := by
    have hfree : Free framing openTag ∧ Free framingServer openTag := by decide
    unfold openFrame
    rw [replaceAll_closed (by decide) (by decide) (by decide)]
    rw [replaceAll_comm (by decide) (by decide) (by decide) (by decide) (by decide) (by decide)
      (by decide) (by decide) (by decide) fun s' _ => hfree.1.not_isPrefix (by decide) _]
    rw [replaceAll_comm (by decide) (by decide) (by decide) (by decide) (by decide) (by decide)
      (by decide) (by decide) (by decide) fun s' _ => hfree.2.not_isPrefix (by decide) _]
    rw [replaceAll_inv (by decide) (by decide) (by decide) ho]
  have hserver : replaceAll framingServer jabberServer (replaceAll openTag streamTag (openFrame s)) =
      replaceSymbol gt (bytes "/>") (replaceAll jabberClient framing s) := by
    rw [htag, replaceAll_closed (by decide) (by decide) (by decide), server_frame_inv hf hcs]
  have hclient : replaceAll framing jabberClient (replaceAll framingServer jabberServer
      (replaceAll openTag streamTag (openFrame s))) = replaceSymbol gt (bytes "/>") s := by
    rw [hserver, replaceAll_closed (by decide) (by decide) (by decide),
      replaceAll_inv (by decide) (by decide) (by decide) hf]
  have hstream := infix_replaceSymbol (c := gt) (r := bytes "/>") (by decide) hns
  unfold fromWs
  rw [if_pos (openFrame_isPrefix hpre)]
  dsimp only
  rw [hclient, if_pos hstream]
  exact replaceAll_mark (by decide)

/-- A run of at most two namespace declarations. -/
def NsDeclarations (ins : Bytes) : Prop :=
  ∃ a ∈ [[], bytes " xmlns='jabber:client'", bytes " xmlns='jabber:server'"],
    ∃ b ∈ [[], bytes " xmlns:stream='http://etherx.jabber.org/streams'"], ins = a ++ b

/-- `t` is `s` with declarations in front of the `>` or `/>` that ends its first tag. -/
def Inserted (first s t : Bytes) : Prop :=
  ∃ head tail ins, s = head ++ tail ∧ t = head ++ ins ++ tail ∧ NsDeclarations ins ∧
    (first = head ++ bytes "/>" ∨ first = head ++ bytes ">" ∧ head.getLast? ≠ some slash)

theorem fromUtf8_of_valid {s : Bytes} (h : Utf8.Valid s) : fromUtf8 s = .ok s := if_pos h

def hasXmlns (head : Bytes) : Bool :=
  containsSeq head (bytes " xmlns='") || containsSeq head (bytes " xmlns=\"")

def hasXmlnsStream (head : Bytes) : Bool :=
  !containsSeq head (bytes "stream:") ||
    (containsSeq head (bytes " xmlns:stream='") || containsSeq head (bytes " xmlns:stream=\""))

def missing (head : Bytes) (isC2s : Bool) : Bytes :=
  (if hasXmlns head then [] else if isC2s then bytes " xmlns='jabber:client'" else
    bytes " xmlns='jabber:server'") ++
  if hasXmlnsStream head then [] else bytes " xmlns:stream='http://etherx.jabber.org/streams'"

theorem missing_declarations (head : Bytes) (isC2s : Bool) : NsDeclarations (missing head isC2s) := by
  refine ⟨_, ?_, _, ?_, rfl⟩
  · cases hasXmlns head <;> cases isC2s <;> decide
  · cases hasXmlnsStream head <;> decide

theorem missing_eq_nil {head : Bytes} {isC2s : Bool} :
    missing head isC2s = [] ↔ hasXmlns head ∧ hasXmlnsStream head := by
  unfold missing
  cases hasXmlns head <;> cases hasXmlnsStream head <;> cases isC2s <;> decide

theorem blank_of_missing {head : Bytes} {isC2s : Bool} (h : missing head isC2s = []) : 32 ∈ head := by
  have hx := (missing_eq_nil.mp h).1
  unfold hasXmlns at hx
  rw [Bool.or_eq_true, containsSeq_iff, containsSeq_iff] at hx
  rcases hx with hx | hx
  · exact hx.subset (by decide)
  · exact hx.subset (by decide)

theorem addXmlns_eq (buf : Bytes) (k : Nat) (isC2s : Bool) :
    addXmlns buf k isC2s = if missing (buf.take k) isC2s = [] then fromUtf8 buf else do
      let head ← fromUtf8 (buf.take k)
      let tail ← fromUtf8 (buf.drop k)
      return head ++ missing (buf.take k) isC2s ++ tail := by
  have hdef : addXmlns buf k isC2s = if hasXmlns (buf.take k) && hasXmlnsStream (buf.take k) then
      fromUtf8 buf else do
        let head ← fromUtf8 (buf.take k)
        let tail ← fromUtf8 (buf.drop k)
        return head ++ (if hasXmlns (buf.take k) then [] else if isC2s then
          bytes " xmlns='jabber:client'" else bytes " xmlns='jabber:server'") ++
          (if hasXmlnsStream (buf.take k) then [] else
            bytes " xmlns:stream='http://etherx.jabber.org/streams'") ++ tail := rfl
  have hnil : missing (buf.take k) isC2s = [] ↔
      (hasXmlns (buf.take k) && hasXmlnsStream (buf.take k)) = true := by
    rw [missing_eq_nil, Bool.and_eq_true]
  rw [hdef]
  by_cases hboth : (hasXmlns (buf.take k) && hasXmlnsStream (buf.take k)) = true
  · rw [if_pos hboth, if_pos (hnil.mpr hboth)]
  · rw [if_neg hboth, if_neg (mt hnil.mp hboth), missing]
    simp only [List.append_assoc]

theorem fromUtf8_eq_ok {buf t : Bytes} (h : fromUtf8 buf = .ok t) : t = buf := by
  unfold fromUtf8 at h
  split_ifs at h
  exact (Outcome.ok.inj h).symm

theorem addXmlns_eq_ok {buf t : Bytes} {k : Nat} {isC2s : Bool} (h : addXmlns buf k isC2s = .ok t) :
    t = buf.take k ++ missing (buf.take k) isC2s ++ buf.drop k := by
  rw [addXmlns_eq] at h
  split_ifs at h with hnil
  · rw [hnil, List.append_nil, List.take_append_drop]
    exact fromUtf8_eq_ok h
  · obtain ⟨head, hhead, h⟩ := Outcome.bind_eq_ok.mp h
    obtain ⟨tail, htail, h⟩ := Outcome.bind_eq_ok.mp h
    rw [fromUtf8_eq_ok hhead, fromUtf8_eq_ok htail] at h
    exact (Outcome.ok.inj h).symm

theorem addXmlns_valid {head tail : Bytes} (hh : Utf8.Valid head) (ht : Utf8.Valid tail) (isC2s : Bool) :
    addXmlns (head ++ tail) head.length isC2s = .ok (head ++ missing head isC2s ++ tail) := by
  rw [addXmlns_eq, List.take_left, List.drop_left, fromUtf8_of_valid (hh.append ht),
    fromUtf8_of_valid hh, fromUtf8_of_valid ht]
  split_ifs with hnil
  · rw [hnil, List.append_nil]
  · rfl

theorem tag_cut {t : Bytes} (h : EmptyTag t ∨ OpenTag t) : ∃ n w stop, NameStart n ∧ Body w ∧
    t = lt :: n :: w ++ stop ∧
      (stop = [slash, gt] ∧ EmptyTag t ∨ stop = [gt] ∧ (n :: w).getLast? ≠ some slash ∧ OpenTag t) := by
  rcases h with h | h
  · have ht := h
    obtain ⟨hn, hw⟩ := h
    exact ⟨_, _, [slash, gt], hn, hw, rfl, .inl ⟨rfl, ht⟩⟩
  · have ht := h
    obtain ⟨hn, hw, hl⟩ := h
    exact ⟨_, _, [gt], hn, hw, rfl, .inr ⟨rfl, hl, ht⟩⟩

theorem element_cut {first s : Bytes} (h : Element first s) :
    ∃ n w stop rest, NameStart n ∧ first = lt :: n :: w ++ stop ∧ s = lt :: n :: w ++ (stop ++ rest) ∧
      (stop = [slash, gt] ∨ stop = [gt] ∧ (n :: w).getLast? ≠ some slash) := by
  have htag : EmptyTag first ∨ OpenTag first := by
    cases h with
    | empty ht => exact .inl ht
    | node ho _ _ => exact .inr ho
  obtain ⟨n, w, stop, hn, -, rfl, hstop⟩ := tag_cut htag
  obtain ⟨rest, rfl⟩ := h.first_isPrefix
  exact ⟨n, w, stop, rest, hn, rfl, List.append_assoc _ _ _, hstop.imp And.left fun h => ⟨h.1, h.2.1⟩⟩

theorem toWsNew_tag {n : UInt8} {w stop rest : Bytes} (hn : NameStart n)
    (hstop : stop = [slash, gt] ∨ stop = [gt] ∧ (n :: w).getLast? ≠ some slash)
    (htag : ¬ streamTag <+: lt :: n :: w ++ (stop ++ rest)) (isC2s : Bool) :
    toWsNew (lt :: n :: w ++ (stop ++ rest)) ((lt :: n :: w ++ stop).length - 1) isC2s =
      addXmlns (lt :: n :: w ++ (stop ++ rest)) (lt :: n :: w).length isC2s := by
  have hclose : ¬ bytes "</stream:stream" <+: lt :: n :: w ++ (stop ++ rest) := by
    intro hp
    exact hn.1 (List.cons_prefix_cons.mp (List.cons_prefix_cons.mp hp).2).1.symm
  have hend : ∃ c, (lt :: n :: w ++ (stop ++ rest))[(lt :: n :: w ++ stop).length - 1 - 1]? = some c ∧
      (if c = slash then (lt :: n :: w ++ stop).length - 1 - 1 else (lt :: n :: w ++ stop).length - 1) =
        (lt :: n :: w).length := by
    rcases hstop with rfl | ⟨rfl, hl⟩
    · exact ⟨slash, by simp, by simp⟩
    · obtain ⟨c, hc, hne⟩ := exists_last hl
      refine ⟨c, ?_, by simp [hne]⟩
      rw [← hc, List.getLast?_eq_getElem?]
      simp only [List.length_append, List.length_cons, List.length_nil, List.cons_append,
        Nat.add_sub_cancel, Nat.zero_add, List.getElem?_cons_succ]
      change (n :: w ++ gt :: rest)[w.length]? = _
      exact List.getElem?_append_left (Nat.lt_succ_self _)
  obtain ⟨c, hc, hlen⟩ := hend
  have hpos : (lt :: n :: w ++ stop).length - 1 ≠ 0 := by
    rcases hstop with rfl | ⟨rfl, -⟩ <;> simp
  unfold toWsNew
  rw [if_neg htag, if_neg hpos, if_neg hclose, hc]
  dsimp only
  rw [hlen]

theorem toWsNew_element {first s : Bytes} (h : Element first s) (hv : Utf8.Valid s)
    (htag : ¬ streamTag <+: s) (isC2s : Bool) :
    ∃ t, toWsNew s (first.length - 1) isC2s = .ok t ∧ Inserted first s t := by
  obtain ⟨n, w, stop, rest, hn, rfl, rfl, hstop⟩ := element_cut h
  have hcut : Utf8.Valid (lt :: n :: w) ∧ Utf8.Valid (stop ++ rest) := by
    rcases hstop with rfl | ⟨rfl, -⟩
    · exact hv.cut (by decide)
    · exact hv.cut (by decide)
  refine ⟨_, (toWsNew_tag hn hstop htag isC2s).trans (addXmlns_valid hcut.1 hcut.2 isC2s),
    lt :: n :: w, stop ++ rest, _, rfl, rfl, missing_declarations _ _, ?_⟩
  rcases hstop with rfl | ⟨rfl, hl⟩
  · exact .inl rfl
  · exact .inr ⟨rfl, by rwa [List.getLast?_cons_cons]⟩

def endsName (b : UInt8) : Bool := [32, 9, 10, 13, slash, gt].contains b

def rootName (s : Bytes) : Bytes := (s.drop 1).takeWhile fun b => !endsName b

theorem rootName_append {p : Bytes} (hp : p ≠ []) {c : UInt8} (hc : endsName c) (s : Bytes) :
    rootName (p ++ c :: s) = (p.drop 1).takeWhile fun b => !endsName b := by
  obtain ⟨a, p, rfl⟩ := List.exists_cons_of_ne_nil hp
  unfold rootName
  change (p ++ c :: s).takeWhile _ = p.takeWhile _
  induction p with
  | nil => rw [List.nil_append, List.takeWhile_cons, hc]; rfl
  | cons b p ih =>
    rw [List.cons_append, List.takeWhile_cons, List.takeWhile_cons, ih (List.cons_ne_nil _ _)]

theorem not_streamTag {s : Bytes} (h : rootName s ≠ bytes "stream:stream") : ¬ streamTag <+: s := by
  rintro ⟨r, rfl⟩
  have hname := rootName_append (p := bytes "<stream:stream") (c := 32) (by decide) (by decide) r
  have heq : streamTag ++ r = bytes "<stream:stream" ++ 32 :: r := rfl
  exact h ((congrArg rootName heq).trans hname)

theorem fromWs_other {t : Bytes} (ho : rootName t ≠ bytes "open") (hc : rootName t ≠ bytes "close") :
    fromWs t = t := by
  have key : ∀ name : Bytes, (name.takeWhile fun b => !endsName b) = name → rootName t ≠ name →
      ¬ lt :: name ++ [32] <+: t := by
    rintro name hname hne ⟨r, rfl⟩
    rw [List.append_assoc] at hne
    exact hne ((rootName_append (List.cons_ne_nil lt name) (by decide) r).trans hname)
  have hopen : ¬ bytes "<open " <+: t := key (bytes "open") (by decide) ho
  have hclose : ¬ bytes "<close " <+: t := key (bytes "close") (by decide) hc
  unfold fromWs
  rw [if_neg hopen, if_neg hclose]

theorem NsDeclarations.head {ins : Bytes} (h : NsDeclarations ins) : ins = [] ∨ ∃ r, ins = 32 :: r := by
  obtain ⟨a, ha, b, hb, rfl⟩ := h
  simp only [List.mem_cons, List.not_mem_nil, or_false] at ha hb
  rcases ha with rfl | rfl | rfl
  · rcases hb with rfl | rfl
    · exact .inl rfl
    · exact .inr ⟨_, rfl⟩
  · exact .inr ⟨_, rfl⟩
  · exact .inr ⟨_, rfl⟩

theorem rootName_insert {head ins : Bytes} {c : UInt8} (hhead : head ≠ []) (hc : endsName c)
    (hins : NsDeclarations ins) (r : Bytes) :
    rootName (head ++ ins ++ c :: r) = rootName (head ++ c :: r) := by
  rw [rootName_append hhead hc]
  rcases hins.head with rfl | ⟨ins, rfl⟩
  · rw [List.append_nil, rootName_append hhead hc]
  · rw [List.append_assoc]
    exact rootName_append hhead (by decide) _

theorem Inserted.rootName {first s t : Bytes} (h : Inserted first s t) (hf : Element first s) :
    rootName t = rootName s := by
  obtain ⟨head, tail, ins, rfl, rfl, hins, hfirst⟩ := h
  have hhead : head ≠ [] := by
    rintro rfl
    have hlen := hf.first_length
    rcases hfirst with rfl | ⟨rfl, -⟩
    · exact absurd hlen (by decide)
    · exact absurd hlen (by decide)
  have htail : ∃ c r, endsName c ∧ tail = c :: r := by
    obtain ⟨r, hr⟩ := hf.first_isPrefix
    rcases hfirst with rfl | ⟨rfl, -⟩
    · rw [List.append_assoc] at hr
      exact ⟨slash, gt :: r, by decide, (List.append_cancel_left hr).symm⟩
    · rw [List.append_assoc] at hr
      exact ⟨gt, r, by decide, (List.append_cancel_left hr).symm⟩
  obtain ⟨c, r, hc, rfl⟩ := htail
  exact rootName_insert hhead hc hins r

/-- A stream header that names its `stream` namespace and nothing that the framing uses itself. -/
structure PlainHeader (s : Bytes) : Prop where
  tag : streamTag <+: s
  ns : bytes "xmlns:stream=" <:+: s
  noOpen : ¬ openTag <:+: s
  noFraming : ¬ framing <:+: s
  noClientServer : ¬ bytes "jabber:client-server" <:+: s

def streamClose : Bytes := bytes "</stream:stream>"

/-- An element that is not taken for part of the framing. -/
def PlainElement (first s : Bytes) : Prop :=
  Element first s ∧ rootName s ∉ [bytes "stream:stream", bytes "open", bytes "close"]

/-- What arrives for `s` behind both conversions. -/
def Delivered (s s' : Bytes) : Prop := s' = s ∨ ∃ first, PlainElement first s ∧ Inserted first s s'

theorem header_round_trip {s : Bytes} (h : PlainHeader s) (hv : Utf8.Valid s) (e : Nat) (isC2s : Bool) :
    ∃ t, toWsNew s e isC2s = .ok t ∧ fromWs t = s := by
  refine ⟨openFrame s, ?_, fromWs_openFrame h.tag h.ns h.noOpen h.noFraming h.noClientServer⟩
  unfold toWsNew
  rw [if_pos h.tag, fromUtf8_of_valid hv]
  rfl

theorem close_round_trip {e : Nat} (he : e ≠ 0) (isC2s : Bool) :
    ∃ t, toWsNew streamClose e isC2s = .ok t ∧ fromWs t = streamClose := by
  refine ⟨closeFrame, ?_, by decide⟩
  unfold toWsNew
  rw [if_neg (by decide), if_neg he, if_pos (by decide)]

theorem PlainElement.not_stream {first s : Bytes} (h : PlainElement first s) : ¬ streamTag <+: s :=
  not_streamTag fun hname => h.2 (by rw [hname]; decide)

theorem element_round_trip {first s : Bytes} (h : PlainElement first s) (hv : Utf8.Valid s)
    (isC2s : Bool) :
    ∃ t, toWsNew s (first.length - 1) isC2s = .ok t ∧ Inserted first s (fromWs t) := by
  obtain ⟨t, ht, hins⟩ := toWsNew_element h.1 hv h.not_stream isC2s
  refine ⟨t, ht, ?_⟩
  have hname := hins.rootName h.1
  have hnot := h.2
  simp only [List.mem_cons, List.not_mem_nil, or_false, not_or] at hnot
  rw [fromWs_other (hname ▸ hnot.2.1) (hname ▸ hnot.2.2)]
  exact hins

theorem writeAll_text {s t : Bytes} {e : Nat} {trace isC2s : Bool} (hx : ¬ bytes "<?xml " <+: s)
    (ht : toWsNew s e isC2s = .ok t) :
    StanzaWrite.webSocketClientWrite.writeAll trace isC2s s e = .ok (some (.text t)) := by
  unfold StanzaWrite.writeAll
  dsimp only
  rw [if_neg hx, ht]
  rfl

/-- What `next_eoft` hands out in some run of a new filter over `bs`. -/
def Emits (n : Nat) (bs s : Bytes) (e : Nat) : Prop :=
  .ok (some (s, e)) ∈ filterNextEoft.outputs (.new n) bs

section

variable {n : Nat} {bs : Bytes} {s : Bytes} {e : Nat}

theorem Emits.header (h : Emits n bs s e) (hbs : Utf8.Valid bs) (hs : PlainHeader s) (isC2s : Bool) :
    ∃ t, toWsNew s e isC2s = .ok t ∧ fromWs t = s := by
  obtain ⟨hunit, hvalid⟩ := emission hbs h
  exact header_round_trip hs (hvalid (hunit hs.tag)).1 e isC2s

theorem Emits.close (h : Emits n bs streamClose e) (hbs : Utf8.Valid bs) (isC2s : Bool) :
    ∃ t, toWsNew streamClose e isC2s = .ok t ∧ fromWs t = streamClose := by
  obtain ⟨-, hmark⟩ := (emission hbs h).2 .streamClose
  have he : e = 15 := hmark _ .streamClose
  exact close_round_trip (by omega) isC2s

theorem Emits.element (h : Emits n bs s e) (hbs : Utf8.Valid bs) {first : Bytes}
    (hs : PlainElement first s) (isC2s : Bool) :
    ∃ t, toWsNew s e isC2s = .ok t ∧ Inserted first s (fromWs t) := by
  have hnot : ¬ StreamOpen first := fun ho => hs.not_stream (ho.2.trans hs.1.first_isPrefix)
  obtain ⟨hv, hmark⟩ := (emission hbs h).2 (.element hs.1 hnot)
  obtain rfl : e = first.length - 1 := hmark _ (.element hs.1 hnot)
  exact element_round_trip hs hv isC2s

theorem Emits.delivered (h : Emits n bs s e) (hbs : Utf8.Valid bs)
    (hs : PlainHeader s ∨ s = streamClose ∨ ∃ first, PlainElement first s) (trace isC2s : Bool) :
    ∃ t, StanzaWrite.webSocketClientWrite.writeAll trace isC2s s e = .ok (some (.text t)) ∧
      Delivered s (fromWs t) := by
  rcases hs with hs | rfl | ⟨first, hs⟩
  · obtain ⟨t, ht, hback⟩ := h.header hbs hs isC2s
    have hx : ¬ bytes "<?xml " <+: s := by
      obtain ⟨r, rfl⟩ := hs.tag
      intro hp
      exact absurd (List.cons_prefix_cons.mp (List.cons_prefix_cons.mp hp).2).1 (by decide)
    exact ⟨t, writeAll_text hx ht, .inl hback⟩
  · obtain ⟨t, ht, hback⟩ := h.close hbs isC2s
    exact ⟨t, writeAll_text (by decide) ht, .inl hback⟩
  · obtain ⟨t, ht, hins⟩ := h.element hbs hs isC2s
    have hx : ¬ bytes "<?xml " <+: s := by
      obtain ⟨m, w, stop, rest, hm, -, rfl, -⟩ := element_cut hs.1
      intro hp
      exact hm.2.2.1 (List.cons_prefix_cons.mp (List.cons_prefix_cons.mp hp).2).1.symm
    exact ⟨t, writeAll_text hx ht, .inr ⟨first, hs, hins⟩⟩

end

end XmppProxy
