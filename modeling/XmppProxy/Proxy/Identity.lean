import XmppProxy.Model.Incoming
import XmppProxy.Proxy.Classification
import XmppProxy.Proxy.Search

/-! Which domain the other server is checked for: the bytes in which `shuffle_rd_wr_filter` looks for it,
against the `from` that an XML parser reads in the header. -/

namespace XmppProxy

open Lib Stanza

theorem leftmost_unique {s p : Bytes} {i j : Nat} (hi : Leftmost s p i) (hj : Leftmost s p j) : i = j := by
  rcases Nat.lt_trichotomy i j with h | h | h
  · exact absurd hi.1 (hj.2 i h)
  · exact h
  · exact absurd hj.1 (hi.2 j h)

theorem firstAt_singleton {x z : Bytes} {q : UInt8} : FirstAt (x ++ [q] ++ z) [q] x.length ↔ q ∉ x := by
  rw [firstAt_iff, List.append_assoc, List.singleton_append]
  constructor
  · intro h hmem
    obtain ⟨u, v, rfl, hu⟩ := List.eq_append_cons_of_mem hmem
    rw [List.append_assoc, List.cons_append] at h
    have hpos := leftmost_unique h (leftmost_singleton hu _)
    rw [List.length_append, List.length_cons] at hpos
    omega
  · exact fun h => leftmost_singleton h z

/-- `needle` first stands behind `u` in `s`, with `x` between it and the next `q`. -/
structure Extracts (s needle : Bytes) (q : UInt8) (u x : Bytes) : Prop where
  first : Leftmost s needle u.length
  closed : ∃ z, s = u ++ needle ++ (x ++ q :: z)
  unquoted : q ∉ x

theorem Extracts.unique {s needle : Bytes} {q : UInt8} {u x u' x' : Bytes} (h : Extracts s needle q u x)
    (h' : Extracts s needle q u' x') : u = u' ∧ x = x' := by
  obtain ⟨z, hz⟩ := h.closed
  obtain ⟨z', hz'⟩ := h'.closed
  have heq : u ++ (needle ++ (x ++ q :: z)) = u' ++ (needle ++ (x' ++ q :: z')) := by
    rw [← List.append_assoc, ← hz, hz', List.append_assoc]
  obtain ⟨rfl, hrest⟩ := List.append_inj heq (leftmost_unique h.first h'.first)
  obtain ⟨rfl, -⟩ := split_run (p := (· ≠ q)) (fun b hb he => h.unquoted (he ▸ hb))
    (fun b hb he => h'.unquoted (he ▸ hb)) (by simp) (by simp) (List.append_cancel_left hrest)
  exact ⟨rfl, rfl⟩

theorem Extracts.isPrefix {s needle : Bytes} {q : UInt8} {u x : Bytes} (h : Extracts s needle q u x) :
    u ++ needle ++ (x ++ [q]) <+: s := by
  obtain ⟨z, hz⟩ := h.closed
  exact ⟨z, by rw [hz, List.append_assoc (u ++ needle), List.append_assoc x, List.singleton_append]⟩

theorem Extracts.eq_of_isPrefix {s needle : Bytes} {q : UInt8} {u x y : Bytes} (h : Extracts s needle q u x)
    (hy : q ∉ y) (hp : u ++ needle ++ (y ++ [q]) <+: s) : y = x := by
  obtain ⟨z, hz⟩ := hp
  rw [List.append_assoc (u ++ needle), List.append_assoc y, List.singleton_append] at hz
  have hextracts : Extracts s needle q u y := ⟨h.first, ⟨z, hz.symm⟩, hy⟩
  exact (hextracts.unique h).2

theorem extractBetween_quote {s needle x : Bytes} {q : UInt8} :
    extractBetween s needle [q] = .ok x ↔ ∃ u, Extracts s needle q u x := by
  rw [extractBetween_eq_ok (List.cons_ne_nil q [])]
  constructor
  · rintro ⟨m, ⟨u, z, hs, hfirst, hclosed⟩, rfl⟩
    rw [List.dropLast_singleton, List.append_nil]
    exact ⟨u, firstAt_iff.mp hfirst, ⟨z, by rw [hs, List.append_assoc m, List.singleton_append]⟩,
      firstAt_singleton.mp hclosed⟩
  · rintro ⟨u, hfirst, ⟨z, hs⟩, hnot⟩
    refine ⟨x, ⟨u, z, ?_, firstAt_iff.mpr hfirst, firstAt_singleton.mpr hnot⟩, (List.append_nil x).symm⟩
    rw [hs, List.append_assoc x, List.singleton_append]

abbrev fromName : Bytes := bytes "from"

/-- Where the domain is looked for: behind the first ` from='` that a `'` follows, and behind the first
` from="` where there is none. -/
def LooksBehind (s : Bytes) (q : UInt8) (u x : Bytes) : Prop :=
  Extracts s (Xml.opening fromName q) q u x ∧
    (q = apos ∨ q = quot ∧ ∀ u' x', ¬ Extracts s (Xml.opening fromName apos) apos u' x')

theorem LooksBehind.unique {s : Bytes} {q q' : UInt8} {u x u' x' : Bytes} (h : LooksBehind s q u x)
    (h' : LooksBehind s q' u' x') : q = q' ∧ u = u' ∧ x = x' := by
  obtain ⟨hx, rfl | ⟨rfl, hnone⟩⟩ := h
  · obtain ⟨hx', rfl | ⟨rfl, hnone'⟩⟩ := h'
    · exact ⟨rfl, hx.unique hx'⟩
    · exact absurd hx (hnone' u x)
  · obtain ⟨hx', rfl | ⟨rfl, -⟩⟩ := h'
    · exact absurd hx' (hnone u' x')
    · exact ⟨rfl, hx.unique hx'⟩

/-- The place behind `u`, whatever text it is that stands there. -/
def LooksAt (s : Bytes) (q : UInt8) (u : Bytes) : Prop := ∃ x, LooksBehind s q u x

theorem fromDomain_eq_ok {s domain : Bytes} (h : Incoming.fromDomain s = .ok domain) :
    ∃ q u, LooksBehind s q u domain := by
  unfold Incoming.fromDomain at h
  have hsingle : extractBetween s (bytes " from='") (bytes "'") =
      extractBetween s (Xml.opening fromName apos) [apos] := rfl
  have hdouble : extractBetween s (bytes " from=\"") (bytes "\"") =
      extractBetween s (Xml.opening fromName quot) [quot] := rfl
  rw [hsingle, hdouble] at h
  cases hone : extractBetween s (Xml.opening fromName apos) [apos] with
  | ok x =>
    rw [hone] at h
    obtain ⟨x', hx', hutf8⟩ := Outcome.bind_eq_ok.mp h
    obtain rfl := Outcome.ok.inj hx'
    obtain ⟨u, hu⟩ := extractBetween_quote.mp hone
    exact ⟨apos, u, fromUtf8_eq_ok hutf8 ▸ hu, .inl rfl⟩
  | err e =>
    rw [hone] at h
    obtain ⟨x, hx, hutf8⟩ := Outcome.bind_eq_ok.mp h
    obtain ⟨u, hu⟩ := extractBetween_quote.mp hx
    refine ⟨quot, u, fromUtf8_eq_ok hutf8 ▸ hu, .inr ⟨rfl, fun u' x' hx' => ?_⟩⟩
    cases hone.symm.trans (extractBetween_quote.mpr ⟨u', hx'⟩)
  | panic => exact absurd hone (extractBetween_ne_panic s _ [apos])

/-- The place behind `u` is that of the attribute `a`. -/
def AtAttribute (front : Bytes) (tag : Xml.Tag) (q : UInt8) (u : Bytes) (a : Xml.Attr) : Prop :=
  a.Spells fromName q ∧ ∃ as bs, tag.attrs = as ++ a :: bs ∧
    u = front ++ (lt :: tag.name ++ as.flatMap Xml.Attr.text ++ a.space.dropLast)

/-- It is in front of the tag, or in a value with the quote that ends it. -/
def AtDecoy (front : Bytes) (tag : Xml.Tag) (q : UInt8) (u : Bytes) : Prop :=
  u.length < front.length ∨ ∃ as a bs x y, tag.attrs = as ++ a :: bs ∧
    a.raw ++ [a.quote] = x ++ Xml.opening fromName q ++ y ∧
    u = front ++ (lt :: tag.name ++ as.flatMap Xml.Attr.text ++ a.front ++ x)

theorem AtAttribute.mem {front u : Bytes} {tag : Xml.Tag} {q : UInt8} {a : Xml.Attr}
    (h : AtAttribute front tag q u a) : a ∈ tag.attrs := by
  obtain ⟨-, as, bs, hattrs, -⟩ := h
  exact hattrs ▸ List.mem_append_right as (List.mem_cons_self ..)

theorem AtAttribute.raw {front u x : Bytes} {tag : Xml.Tag} {q : UInt8} {a : Xml.Attr}
    (h : AtAttribute front tag q u a)
    (hx : Extracts (front ++ tag.text) (Xml.opening fromName q) q u x) : x = a.raw := by
  obtain ⟨hs, as, bs, hattrs, hu⟩ := h
  obtain ⟨z, hz⟩ := hx.closed
  obtain ⟨w, d, hd⟩ := (List.eq_nil_or_concat' a.space).resolve_left a.space_ne
  have hlast := hs.space
  rw [hd, List.getLast?_concat] at hlast
  obtain rfl := Option.some.inj hlast
  have htext : front ++ tag.text = u ++ Xml.opening fromName q ++
      (a.raw ++ q :: (bs.flatMap Xml.Attr.text ++ tag.trailing ++ tag.stop)) := by
    rw [hu, hd, List.dropLast_concat, Xml.Tag.text, Xml.Tag.head, hattrs, List.flatMap_append,
      List.flatMap_cons, Xml.Attr.text, Xml.Attr.front, hd, hs.name, hs.before, hs.after, hs.quote, Xml.opening]
    simp only [List.append_assoc, List.cons_append, List.nil_append]
  have hraw : q ∉ a.raw := hs.quote ▸ a.quote_not_mem_raw
  obtain ⟨hxr, -⟩ := split_run (p := (· ≠ q)) (fun b hb he => hx.unquoted (he ▸ hb))
    (fun b hb he => hraw (he ▸ hb)) (by simp) (by simp) (List.append_cancel_left (hz.symm.trans htext))
  exact hxr

theorem place_cases {front u x : Bytes} {tag : Xml.Tag} {q : UInt8} (hq : Xml.isQuote q)
    (h : Extracts (front ++ tag.text) (Xml.opening fromName q) q u x) :
    (∃ a, AtAttribute front tag q u a) ∨ AtDecoy front tag q u := by
  obtain ⟨z, hz⟩ := h.closed
  by_cases hlen : u.length < front.length
  · exact .inr (.inl hlen)
  obtain ⟨u', rfl⟩ : ∃ u', u = front ++ u' := by
    have hp : u <+: front ++ tag.text := ⟨_, by rw [hz, List.append_assoc]⟩
    have hf : front <+: u := List.prefix_of_prefix_length_le (List.prefix_append _ _) hp (by omega)
    obtain ⟨u', hu'⟩ := hf
    exact ⟨u', hu'.symm⟩
  have htail : ∀ b ∈ tag.trailing ++ tag.stop, ¬ Xml.isQuote b := fun b hb =>
    (List.mem_append.mp hb).elim (tag.not_quote.2.1 b) (tag.not_quote.2.2 b)
  have htag : u' ++ Xml.opening fromName q ++ (x ++ q :: z) =
      lt :: tag.name ++ tag.attrs.flatMap Xml.Attr.text ++ (tag.trailing ++ tag.stop) := by
    have hz' : front ++ tag.text = front ++ (u' ++ Xml.opening fromName q ++ (x ++ q :: z)) := by
      rw [hz]
      simp only [List.append_assoc]
    rw [← List.append_cancel_left hz', Xml.Tag.text, Xml.Tag.head]
    simp only [List.append_assoc]
  obtain ⟨as, a, bs, hattrs, ⟨hs, hu, -⟩ | ⟨y, r, hr, hu, -⟩⟩ :=
    Xml.opening_stands (by decide) hq htail tag.not_quote.1 htag
  · exact .inl ⟨a, hs, as, bs, hattrs, congrArg (front ++ ·) hu⟩
  · exact .inr (.inr ⟨as, a, bs, y, r, hattrs, hr, congrArg (front ++ ·) hu⟩)

/-- The search stops at `from` itself, and between its quotes stands what is read there; or it stops at another
place, where the value of `from` stands too, up to the same quote. -/
def FoundInFrom (front : Bytes) (tag : Xml.Tag) : Prop :=
  ∃ q u, LooksAt (front ++ tag.text) q u ∧
    ((∃ a, AtAttribute front tag q u a ∧ a.raw = a.read) ∨
      AtDecoy front tag q u ∧ ∃ a ∈ tag.attrs, a.name = fromName ∧ q ∉ a.read ∧
        u ++ Xml.opening fromName q ++ (a.read ++ [q]) <+: front ++ tag.text)

/-- No domain but `v` can be looked up. -/
def Incoming.answering {Cert Verifier : Type} (env : Incoming Cert Verifier) (v : Bytes) :
    Incoming Cert Verifier :=
  { env with getXmppConnections := fun domain isC2s =>
      if domain = v then env.getXmppConnections domain isC2s else .err .io }

theorem Incoming.checkServer_answering {Cert Verifier : Type} {env : Incoming Cert Verifier} {s v : Bytes} :
    (env.answering v).checkServer s = .ok () ↔ fromDomain s = .ok v ∧ env.checkServer s = .ok () := by
  unfold checkServer answering
  cases fromDomain s with
  | ok domain =>
    by_cases hv : domain = v
    · simp [Outcome.bind_eq_ok, hv]
    · simp [Outcome.bind_eq_ok, hv]
  | err e => simp
  | panic => simp

/-- A server that passes the check is checked for the `from` of its header exactly when this is where the
search stops. -/
theorem domain_iff {Cert Verifier : Type} (env : Incoming Cert Verifier) (front : Bytes) (tag : Xml.Tag)
    (hw : tag.WellFormed) (h : env.checkServer (front ++ tag.text) = .ok ()) :
    (∃ v, tag.Reads fromName v ∧ (env.answering v).checkServer (front ++ tag.text) = .ok ()) ↔
      FoundInFrom front tag := by
  -- what is looked up is the text at the place where the search stops
  obtain ⟨domain, hdomain, -⟩ := Outcome.bind_eq_ok.mp h
  obtain ⟨q, u, hlooks⟩ := fromDomain_eq_ok hdomain
  have hchecked : ∀ v, (env.answering v).checkServer (front ++ tag.text) = .ok () ↔ v = domain := fun v =>
    Incoming.checkServer_answering.trans
      ⟨fun hv => Outcome.ok.inj (hv.1.symm.trans hdomain), fun hv => ⟨hv ▸ hdomain, h⟩⟩
  simp only [hchecked, exists_eq_right]
  have hq : Xml.isQuote q := by
    rcases hlooks.2 with rfl | ⟨rfl, -⟩ <;> decide
  constructor
  · rintro ⟨b, hb, hname, hread⟩
    refine ⟨q, u, ⟨domain, hlooks⟩, ?_⟩
    rcases place_cases hq hlooks.1 with ⟨a, hat⟩ | hdecoy
    · obtain rfl := hw.attr_inj hat.mem hb (hat.1.name.trans hname.symm)
      exact .inl ⟨a, hat, (hat.raw hlooks.1).symm.trans hread.symm⟩
    · exact .inr ⟨hdecoy, b, hb, hname, hread ▸ hlooks.1.unquoted, hread ▸ hlooks.1.isPrefix⟩
  · rintro ⟨q', u', ⟨x, hlooks'⟩, hcase⟩
    obtain ⟨rfl, rfl, rfl⟩ := hlooks.unique hlooks'
    rcases hcase with ⟨a, hat, hraw⟩ | ⟨-, a, ha, hname, hnot, hthere⟩
    · exact ⟨a, hat.mem, hat.1.name, hraw.symm.trans (hat.raw hlooks.1).symm⟩
    · exact ⟨a, ha, hname, hlooks.1.eq_of_isPrefix hnot hthere⟩

def trusting : Incoming Unit Unit where
  config := { maxStanzaSizeBytes := 64, s2sTarget := some (.path []), c2sTarget := none, proxy := false }
  localAddr := ⟨.ofV4 127 0 0 1, 5269⟩
  clientAddr := ⟨.ofV4 192 0 2 1, 40000⟩
  peerCertificates := some [()]
  getXmppConnections _ _ := .ok ()
  verifyCert _ _ _ := .ok ()
  connect _ := .ok ()
  proxyTaken := none
  openRes := .done
  trace := false

/-- `<stream:stream from='a'>` -/
def fromTag : Xml.Tag := .ofPlain (bytes "stream:stream") [⟨[32], fromName, apos, bytes "a"⟩] false (by decide)

/-- `<stream:stream x=" from='a'" from='b'>` -/
def impostorTag : Xml.Tag :=
  .ofPlain (bytes "stream:stream")
    [⟨[32], bytes "x", quot, bytes " from='a'"⟩, ⟨[32], fromName, apos, bytes "b"⟩] false (by decide)

theorem domain_iff_from :
    (∃ v, fromTag.Reads fromName v ∧
      (trusting.answering v).checkServer (bytes "<?xml ?>" ++ fromTag.text) = .ok ()) ↔
    FoundInFrom (bytes "<?xml ?>") fromTag :=
  domain_iff trusting (bytes "<?xml ?>") fromTag (by decide) rfl

/-- The certificate is checked for `a`, and the backend reads that the stream is from `b`. -/
theorem checked_for_another : ¬ ∀ (env : Incoming Unit Unit) (n : Nat) (wrt : StanzaWrite)
    (f f' : StanzaFilter) (polls : List (BytePoll × WriteResult)) (streamOpen : Bytes) (tag : Xml.Tag),
    Idle n f → (streamPreamble .asyncRead wrt).final (.reading f []) polls = .accepted f' streamOpen false →
    StreamHeader streamOpen tag → tag.WellFormed → env.checkServer streamOpen = .ok () →
      ∃ v, tag.Reads fromName v ∧ (env.answering v).checkServer streamOpen = .ok () := by
  intro h
  obtain ⟨v, hreads, hchecked⟩ := h trusting 64 .asyncWrite (.new 64) _ (arriving impostorTag.text)
    impostorTag.text impostorTag (idle_new 64) rfl
    ⟨by decide, [], fun d hd => absurd hd List.not_mem_nil, rfl⟩ (by decide) rfl
  have hfound : Incoming.fromDomain impostorTag.text = .ok (bytes "a") := rfl
  obtain rfl : bytes "a" = v :=
    Outcome.ok.inj (hfound.symm.trans (Incoming.checkServer_answering.mp hchecked).1)
  exact absurd hreads (by decide)

end XmppProxy
