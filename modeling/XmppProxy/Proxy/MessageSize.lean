import XmppProxy.Lib.Occurrences
import XmppProxy.Proxy.RoundTrip

/-! Which Text messages fit into the filter of a WebSocket reader: the limits of the library are on what
is received, the buffer is for what `from_ws` makes of it. -/

namespace XmppProxy

open Lib Stanza

abbrev xmlnsStream : Bytes := bytes "xmlns:stream="
abbrev emptyClose : Bytes := bytes "/>"
abbrev xmlnsClose : Bytes := bytes " xmlns:stream=\"http://etherx.jabber.org/streams\">"

def renamed (text : Bytes) : Bytes :=
  replaceAll framing jabberClient (replaceAll framingServer jabberServer (replaceAll openTag streamTag text))

theorem fromWs_eq (text : Bytes) : fromWs text =
    if openTag <+: text then
      if xmlnsStream <:+: renamed text then replaceAll emptyClose (bytes ">") (renamed text)
      else replaceAll emptyClose xmlnsClose (renamed text)
    else if bytes "<close " <+: text then streamClose else text := rfl

theorem occurrences_renamed {w : Bytes} (ho : Separate openTag streamTag w)
    (hs : Separate framingServer jabberServer w) (hc : Separate framing jabberClient w) (text : Bytes) :
    occurrences w (renamed text) = occurrences w text := by
  unfold renamed
  rw [occurrences_replaceAll (by decide) hc, occurrences_replaceAll (by decide) hs,
    occurrences_replaceAll (by decide) ho]

theorem renamed_length (text : Bytes) :
    (renamed text).length + 29 * occurrences framingServer text +
        22 * (occurrences framing text - occurrences framingServer text) =
      text.length + 9 * occurrences openTag text := by
  have hopen := replaceAll_length (p := openTag) (by decide) (by decide) streamTag text
  generalize hx : replaceAll openTag streamTag text = x at hopen
  have hserver := replaceAll_length (p := framingServer) (by decide) (by decide) jabberServer x
  generalize hy : replaceAll framingServer jabberServer x = y at hserver
  have hclient := replaceAll_length (p := framing) (by decide) (by decide) jabberClient y
  have hframing : occurrences framing y + occurrences framingServer x = occurrences framing x := by
    rw [← hy]
    exact occurrences_longer (by decide) (by decide) (by decide) (by decide) (by decide) (by decide)
      (by decide) x
  have hx₁ : occurrences framingServer x = occurrences framingServer text := by
    rw [← hx]
    exact occurrences_replaceAll (by decide) (by decide) text
  have hx₂ : occurrences framing x = occurrences framing text := by
    rw [← hx]
    exact occurrences_replaceAll (by decide) (by decide) text
  have hdone : renamed text = replaceAll framing jabberClient y := by
    unfold renamed
    rw [hx, hy]
  rw [hdone]
  have hlengths : openTag.length = 6 ∧ streamTag.length = 15 ∧ framingServer.length = 42 ∧
      jabberServer.length = 13 ∧ framing.length = 35 ∧ jabberClient.length = 13 := by decide
  obtain ⟨ho, hst, hfs, hjs, hf, hjc⟩ := hlengths
  rw [ho, hst] at hopen
  rw [hfs, hjs] at hserver
  rw [hf, hjc] at hclient
  omega

/-- The text that `from_ws` makes of `text` has at most `n` bytes, told from `text`: an `<open .../>`
grows by 9 bytes for each `<open `, by 47 for each `/>` if it declares no `xmlns:stream=`, and shrinks by
29 or 22 bytes for each framing namespace. -/
def FitsBuffer (n : Nat) (text : Bytes) : Prop :=
  if openTag <+: text then
    text.length + 9 * occurrences openTag text +
        (if xmlnsStream <:+: text then 0 else 47 * occurrences emptyClose text) ≤
      n + 29 * occurrences framingServer text +
        22 * (occurrences framing text - occurrences framingServer text) +
        (if xmlnsStream <:+: text then occurrences emptyClose text else 0)
  else if bytes "<close " <+: text then 16 ≤ n
  else text.length ≤ n

instance (n : Nat) (text : Bytes) : Decidable (FitsBuffer n text) := by
  unfold FitsBuffer
  infer_instance

theorem fitsBuffer_iff (n : Nat) (text : Bytes) : FitsBuffer n text ↔ (fromWs text).length ≤ n := by
  rw [fromWs_eq]
  unfold FitsBuffer
  by_cases hopen : openTag <+: text
  · have hstream : xmlnsStream <:+: renamed text ↔ xmlnsStream <:+: text := by
      have hne : xmlnsStream ≠ [] := by decide
      rw [← occurrences_pos hne, ← occurrences_pos hne,
        occurrences_renamed (by decide) (by decide) (by decide)]
    have hclose : occurrences emptyClose (renamed text) = occurrences emptyClose text :=
      occurrences_renamed (by decide) (by decide) (by decide) text
    have hrenamed := renamed_length text
    have hlengths : emptyClose.length = 2 ∧ (bytes ">").length = 1 ∧ xmlnsClose.length = 49 := by decide
    obtain ⟨hc, hg, hx⟩ := hlengths
    rw [if_pos hopen, if_pos hopen]
    simp only [hstream]
    by_cases hdecl : xmlnsStream <:+: text
    · have hlen := replaceAll_length (p := emptyClose) (by decide) (by decide) (bytes ">") (renamed text)
      rw [hclose, hc, hg] at hlen
      rw [if_pos hdecl, if_pos hdecl, if_pos hdecl]
      omega
    · have hlen := replaceAll_length (p := emptyClose) (by decide) (by decide) xmlnsClose (renamed text)
      rw [hclose, hc, hx] at hlen
      rw [if_neg hdecl, if_neg hdecl, if_neg hdecl]
      omega
  · rw [if_neg hopen, if_neg hopen]
    by_cases hclose : bytes "<close " <+: text
    · rw [if_pos hclose, if_pos hclose]
      exact Iff.rfl
    · rw [if_neg hclose, if_neg hclose]

/-- A stanza of at most `n` bytes, or an error. -/
def WithinLimit (n : Nat) (polled : StanzaRead.Polled) : Prop :=
  match polled.result with
  | some (.ok (some (buf, _))) => buf.length ≤ n
  | some (.err _) => True
  | _ => False

theorem pollMessage_text (wrt : StanzaWrite) (f : StanzaFilter) (res : WriteResult) (text : Bytes) :
    WithinLimit f.bufSize (StanzaRead.pollMessage wrt f res (.message (.text text))) ↔
      (fromWs text).length ≤ f.bufSize := by
  unfold StanzaRead.pollMessage
  dsimp only
  split_ifs with h
  · exact ⟨fun _ => h, fun _ => h⟩
  · exact ⟨False.elim, h⟩

/-- Of the Text messages that the library lets through, whatever their frames, a reader with a filter of
any size and in any state returns those that fit, and panics on the others. -/
theorem text_within_limit_iff (wrt : StanzaWrite) (f : StanzaFilter) (res : WriteResult)
    (frames : List Bytes) (_ : (wsCfg f.bufSize).Admits frames) :
    WithinLimit f.bufSize (StanzaRead.pollMessage wrt f res (.message (.text frames.flatten))) ↔
      FitsBuffer f.bufSize frames.flatten := by
  rw [pollMessage_text, fitsBuffer_iff]

theorem admits_of_lengths {n : Nat} {frames : List Bytes} (hf : ∀ frame ∈ frames, frame.length ≤ n)
    (hm : frames.flatten.length ≤ n * 4) (hu : Utf8.Valid frames.flatten) : (wsCfg n).Admits frames where
  frameSize := by
    intro k hk
    obtain rfl := Option.some.inj hk
    exact hf
  messageSize := by
    intro k hk
    obtain rfl := Option.some.inj hk
    exact hm
  utf8 := hu

theorem text_within_limit_open :
    WithinLimit 80 (StanzaRead.pollMessage .asyncWrite (.new 80) .done (.message (.text (bytes "<open />")))) ↔
      FitsBuffer 80 (bytes "<open />") :=
  text_within_limit_iff .asyncWrite (.new 80) .done [bytes "<open />"]
    (admits_of_lengths (by decide) (by decide) (by decide))

/-- Two frames of four bytes are admitted where a stanza may have four bytes, and overrun the buffer. -/
theorem text_over_limit :
    ¬ ∀ n wrt res frames, (wsCfg n).Admits frames →
      WithinLimit n (StanzaRead.pollMessage wrt (.new n) res (.message (.text frames.flatten))) := by
  intro h
  have hlimit := h 4 .asyncWrite .done [bytes "<a/>", bytes "<b/>"]
    (admits_of_lengths (by decide) (by decide) (by decide))
  have hfits := (pollMessage_text .asyncWrite (.new 4) .done (bytes "<a/><b/>")).mp hlimit
  exact absurd hfits (by decide)

end XmppProxy
