import XmppProxy.Model.Peek

/-! What the first bytes of a connection are taken for. A buffered reader shows the same bytes again until
they are consumed, so that the loops only ever see what the first read returned; a socket shows more and
more of them. -/

namespace XmppProxy

namespace BufReader

variable {r : BufReader} {len turns : Nat}

def contents (r : BufReader) : Bytes := r.buffer ++ r.reads.flatten

/-- The internal buffer, or what the first read puts there. -/
def atOnce (r : BufReader) : Bytes := if r.buffer = [] then r.reads.headD [] else r.buffer

theorem fillBuf_buffer (r : BufReader) : r.fillBuf.buffer = r.atOnce := by
  match r with
  | ⟨[], [], _⟩ => rfl
  | ⟨[], chunk :: reads, _⟩ => rfl
  | ⟨b :: buffer, reads, _⟩ => rfl

theorem fillBuf_of_empty (h : r.fillBuf.buffer = []) : r.fillBuf = r := by
  match r with
  | ⟨[], [], _⟩ => rfl
  | ⟨[], chunk :: reads, hr⟩ => exact absurd h (hr chunk (List.mem_cons_self ..))
  | ⟨b :: buffer, reads, _⟩ => rfl

theorem fillBuf_of_buffer (h : r.buffer ≠ []) : r.fillBuf = r := by
  match r with
  | ⟨[], _, _⟩ => exact absurd rfl h
  | ⟨b :: buffer, reads, _⟩ => rfl

theorem fillBuf_fillBuf (r : BufReader) : r.fillBuf.fillBuf = r.fillBuf := by
  by_cases h : r.fillBuf.buffer = []
  · rw [fillBuf_of_empty h]
    exact fillBuf_of_empty h
  · exact fillBuf_of_buffer h

theorem fillBuf_contents (r : BufReader) : r.fillBuf.contents = r.contents := by
  match r with
  | ⟨[], [], _⟩ => rfl
  | ⟨[], chunk :: reads, _⟩ => rfl
  | ⟨b :: buffer, reads, _⟩ => rfl

theorem atOnce_prefixed (r : BufReader) : r.atOnce <+: r.contents := by
  rw [← fillBuf_buffer, ← fillBuf_contents]
  exact List.prefix_append _ _

theorem fillBuf_atOnce (r : BufReader) : r.fillBuf.atOnce = r.atOnce := by
  rw [← fillBuf_buffer, fillBuf_fillBuf, fillBuf_buffer]

theorem take_atOnce (h : len ≤ r.atOnce.length) : r.atOnce.take len = r.contents.take len := by
  obtain ⟨rest, hrest⟩ := r.atOnce_prefixed
  rw [← hrest, List.take_append_of_le_length h]

theorem peek_enough (h : len ≤ r.atOnce.length) :
    r.peek len turns = (.ok (r.contents.take len), r.fillBuf) := by
  unfold peek
  dsimp only
  rw [fillBuf_buffer, if_pos h, take_atOnce h]

theorem peek_short (turns : Nat) (h : r.atOnce.length < len) : ∃ e, r.peek len turns = (.error e, r.fillBuf) := by
  induction turns generalizing r with
  | zero =>
    unfold peek
    dsimp only
    rw [fillBuf_buffer, if_neg (Nat.not_le.mpr h)]
    split_ifs
    · exact ⟨_, rfl⟩
    · exact ⟨_, rfl⟩
  | succ turns ih =>
    unfold peek
    dsimp only
    rw [fillBuf_buffer, if_neg (Nat.not_le.mpr h)]
    split_ifs
    · exact ⟨_, rfl⟩
    · have hagain := @ih r.fillBuf (by rwa [fillBuf_atOnce])
      rwa [fillBuf_fillBuf] at hagain

theorem matchBuf_enough {matcher : Bytes → Bool} (h : len ≤ r.atOnce.length) :
    firstBytesMatchBuf len matcher turns r = (.ok (matcher (r.contents.take len)), r.fillBuf) := by
  unfold firstBytesMatchBuf
  dsimp only
  rw [fillBuf_buffer, if_pos h, take_atOnce h]

theorem matchBuf_short {matcher : Bytes → Bool} (h : r.atOnce.length < len) :
    firstBytesMatchBuf len matcher turns r = (.error .elapsed, r.fillBuf) := by
  induction turns generalizing r with
  | zero =>
    unfold firstBytesMatchBuf
    dsimp only
    rw [fillBuf_buffer, if_neg (Nat.not_le.mpr h)]
  | succ turns ih =>
    unfold firstBytesMatchBuf
    dsimp only
    rw [fillBuf_buffer, if_neg (Nat.not_le.mpr h), ih (by rwa [fillBuf_atOnce]), fillBuf_fillBuf]

end BufReader

/-- A socket shows what has come in since: any arrival of the same bytes gives the same answer. -/
theorem TcpStream.peekBytes_eq {len : Nat} {arrivals : List Bytes} {queue : Bytes} (hqueue : queue ≠ [])
    (hlen : len ≤ (queue ++ arrivals.flatten).length) :
    (TcpStream.peekBytes len arrivals queue).1 = .ok ((queue ++ arrivals.flatten).take len) := by
  have hpos := List.length_pos_iff.mpr hqueue
  induction arrivals generalizing queue with
  | nil =>
    rw [List.flatten_nil, List.append_nil] at hlen ⊢
    unfold TcpStream.peekBytes
    dsimp only
    rw [if_pos (Nat.min_eq_right hlen)]
  | cons more arrivals ih =>
    rw [List.flatten_cons, ← List.append_assoc] at hlen ⊢
    unfold TcpStream.peekBytes
    dsimp only
    by_cases henough : len ≤ queue.length
    · rw [if_pos (Nat.min_eq_right henough), List.append_assoc, List.take_append_of_le_length henough]
    · have hmore : 0 < (queue ++ more).length := by
        rw [List.length_append]
        omega
      rw [if_neg (by omega), if_neg (by omega)]
      exact ih (List.ne_nil_of_length_pos hmore) hlen hmore

/-- The answer for the first `len` bytes, an error if there are fewer, and all of them still to be read. -/
structure Sniffs {α : Type} (len : Nat) (contents : Bytes) (answer : Bytes → α)
    (res : Except PeekError α) (left : Bytes) : Prop where
  answered : len ≤ contents.length → res = .ok (answer (contents.take len))
  ended : contents.length < len → ∃ e, res = .error e
  kept : left = contents

theorem Sniffs.iff_of_cases {α : Type} {len n : Nat} {contents left : Bytes} {answer : Bytes → α}
    {res : Except PeekError α} (hn : n ≤ contents.length) (hleft : left = contents)
    (henough : len ≤ n → res = .ok (answer (contents.take len)))
    (hshort : n < len → ∃ e, res = .error e) :
    Sniffs len contents answer res left ↔ contents.length < len ∨ len ≤ n := by
  constructor
  · intro hs
    by_contra hcond
    obtain ⟨hlen, hmore⟩ := not_or.mp hcond
    obtain ⟨e, he⟩ := hshort (by omega)
    cases he.symm.trans (hs.answered (by omega))
  · rintro (hlen | hlen)
    · exact ⟨fun h => by omega, fun _ => hshort (by omega), hleft⟩
    · exact ⟨fun _ => henough hlen, fun h => by omega, hleft⟩

namespace BufReader

variable {r : BufReader} {len turns : Nat}

theorem atOnce_le (r : BufReader) : r.atOnce.length ≤ r.contents.length := r.atOnce_prefixed.length_le

theorem peek_kept : (r.peek len turns).2.contents = r.contents := by
  rcases Nat.lt_or_ge r.atOnce.length len with h | h
  · obtain ⟨e, he⟩ := peek_short turns h
    rw [he, fillBuf_contents]
  · rw [peek_enough h, fillBuf_contents]

theorem matchBuf_kept {matcher : Bytes → Bool} :
    (firstBytesMatchBuf len matcher turns r).2.contents = r.contents := by
  rcases Nat.lt_or_ge r.atOnce.length len with h | h
  · rw [matchBuf_short h, fillBuf_contents]
  · rw [matchBuf_enough h, fillBuf_contents]

theorem peek_sniffs_iff (turns : Nat) : Sniffs len r.contents id (r.peek len turns).1 (r.peek len turns).2.contents ↔
    r.contents.length < len ∨ len ≤ r.atOnce.length :=
  Sniffs.iff_of_cases r.atOnce_le peek_kept (fun h => by rw [peek_enough h]; rfl) fun h => by
    obtain ⟨e, he⟩ := peek_short turns h
    exact ⟨e, by rw [he]⟩

theorem match_sniffs_iff (turns : Nat) (matcher : Bytes → Bool) :
    Sniffs len r.contents matcher ((r.peek len turns).1.map matcher) (r.peek len turns).2.contents ↔
      r.contents.length < len ∨ len ≤ r.atOnce.length :=
  Sniffs.iff_of_cases r.atOnce_le peek_kept (fun h => by rw [peek_enough h]; rfl) fun h => by
    obtain ⟨e, he⟩ := peek_short turns h
    exact ⟨e, by rw [he]; rfl⟩

theorem matchBuf_sniffs_iff {matcher : Bytes → Bool} :
    Sniffs len r.contents matcher (firstBytesMatchBuf len matcher turns r).1
        (firstBytesMatchBuf len matcher turns r).2.contents ↔
      r.contents.length < len ∨ len ≤ r.atOnce.length :=
  Sniffs.iff_of_cases r.atOnce_le matchBuf_kept (fun h => by rw [matchBuf_enough h]) fun h =>
    ⟨_, by rw [matchBuf_short h]⟩

end BufReader

/-- All of the buffered readers give the answer for the first `len` bytes, however these are delivered,
exactly where a single read brings them, or the stream ends before them. -/
theorem sniffing_iff (r : BufReader) (len turns : Nat) (matcher : Bytes → Bool) :
    (Sniffs len r.contents id (r.peekBytes len turns).1 (r.peekBytes len turns).2.contents ∧
      Sniffs len r.contents id (BufStream.peekBytes ⟨r⟩ len turns).1
        (BufStream.peekBytes ⟨r⟩ len turns).2.inner.contents ∧
      Sniffs len r.contents matcher (firstBytesMatch (r.peekBytes len turns) matcher).1
        (firstBytesMatch (r.peekBytes len turns) matcher).2.contents ∧
      Sniffs len r.contents matcher (firstBytesMatch (BufStream.peekBytes ⟨r⟩ len turns) matcher).1
        (firstBytesMatch (BufStream.peekBytes ⟨r⟩ len turns) matcher).2.inner.contents ∧
      Sniffs len r.contents matcher (firstBytesMatchBuf len matcher turns r).1
        (firstBytesMatchBuf len matcher turns r).2.contents) ↔
    r.contents.length < len ∨ len ≤ r.atOnce.length := by
  constructor
  · rintro ⟨hpeek, -⟩
    exact (BufReader.peek_sniffs_iff turns).mp hpeek
  · intro h
    have hpeek := (BufReader.peek_sniffs_iff turns).mpr h
    have hmatch := (BufReader.match_sniffs_iff turns matcher).mpr h
    exact ⟨hpeek, hpeek, hmatch, hmatch, BufReader.matchBuf_sniffs_iff.mpr h⟩

/-- The first bytes of a request, of which the first read brings one. -/
def splitGet : BufReader where
  buffer := []
  reads := [bytes "G", bytes "ET"]
  nonempty := by decide

/-- No clock lets the loop see the others. -/
theorem sniffing_split :
    ¬ ∃ turns, Sniffs 3 splitGet.contents (fun p => decide (p = bytes "GET"))
      (firstBytesMatchBuf 3 (fun p => decide (p = bytes "GET")) turns splitGet).1
      (firstBytesMatchBuf 3 (fun p => decide (p = bytes "GET")) turns splitGet).2.contents := by
  rintro ⟨turns, hs⟩
  have hanswered := hs.answered (by decide)
  rw [BufReader.matchBuf_short (by decide)] at hanswered
  cases hanswered

end XmppProxy
