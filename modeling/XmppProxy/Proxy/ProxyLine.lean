import Mathlib.Data.List.TakeWhile
import XmppProxy.Lib.AddressText
import XmppProxy.Proxy.Streams

/-! What a target that speaks the PROXY protocol makes of the line that `open_incoming` writes. -/

namespace XmppProxy

open Lib

def toVector {α : Type} (n : Nat) (f : Nat → α) (w : List Nat) : Option (Vector α n) :=
  if h : (w.map f).length = n then some ⟨(w.map f).toArray, h⟩ else none

/-- An address as a target reads it: of the family that the line names. -/
def readIp (isIpv4 : Bool) (w : Bytes) : Option IpAddr :=
  if isIpv4 then (readOctets w).bind fun octets => (toVector 4 Nat.toUInt8 octets).map .v4
  else (readSegments w).bind fun segments => (toVector 8 Nat.toUInt16 segments).map .v6

theorem toVector_toNat {α : Type} {n : Nat} {f : Nat → α} {g : α → Nat} (h : ∀ a, f (g a) = a) (v : Vector α n) :
    toVector n f (v.toList.map g) = some v := by
  have hmap : (v.toList.map g).map f = v.toList := by
    rw [List.map_map]
    exact (List.map_congr_left fun a _ => h a).trans (List.map_id _)
  unfold toVector
  rw [dif_pos (by rw [hmap]; exact v.length_toList)]
  congr 1
  apply Vector.toList_inj.mp
  exact hmap

theorem joined_eq (sep : UInt8) (ws : List Bytes) : joined sep ws = [sep].intercalate ws := by
  induction ws with
  | nil => rfl
  | cons w ws ih =>
    cases ws with
    | nil => exact (List.intercalate_singleton ..).symm
    | cons w' ws => rw [joined, ih, intercalate_cons w (List.cons_ne_nil w' ws)]; simp

theorem displayV4_eq (octets : List UInt8) : displayV4 octets = writeOctets (octets.map UInt8.toNat) := by
  unfold displayV4 writeOctets
  rw [joined_eq, List.map_map]
  rfl

theorem displaySegments_eq (segments : List UInt16) :
    displaySegments segments = writeGroups (segments.map UInt16.toNat) := by
  unfold displaySegments writeGroups
  rw [joined_eq, List.map_map]
  rfl

theorem lt_of_mem_octets {octets : List UInt8} : ∀ n ∈ octets.map UInt8.toNat, n < 256 := by
  intro n hn
  obtain ⟨o, -, rfl⟩ := List.mem_map.mp hn
  exact o.toNat_lt

theorem lt_of_mem_segments {segments : List UInt16} : ∀ n ∈ segments.map UInt16.toNat, n < 65536 := by
  intro n hn
  obtain ⟨s, -, rfl⟩ := List.mem_map.mp hn
  exact s.toNat_lt

theorem foldl_zipIdx {α β : Type} {motive : List α → β → Prop} {f : β → α × Nat → β} {b : β} (hnil : motive [] b)
    (hstep : ∀ w a b, motive w b → motive (w ++ [a]) (f b (a, w.length))) (w : List α) :
    motive w (w.zipIdx.foldl f b) := by
  induction w using List.reverseRecOn with
  | nil => exact hnil
  | append_singleton w a ih =>
    rw [List.zipIdx_append, List.foldl_append, Nat.zero_add]
    exact hstep w a _ ih

def Span.Zeros (w : List UInt16) (s : Span) : Prop :=
  ∃ front back, w = front ++ List.replicate s.len 0 ++ back ∧ front.length = s.start

theorem Span.Zeros.end_le {w : List UInt16} {s : Span} (h : s.Zeros w) : s.start + s.len ≤ w.length := by
  obtain ⟨front, back, rfl, hstart⟩ := h
  rw [List.length_append, List.length_append, List.length_replicate]
  omega

def Span.Last (w : List UInt16) (s : Span) : Prop :=
  ∃ front, w = front ++ List.replicate s.len 0 ∧ front.length = s.start

theorem Span.Zeros.append {w v : List UInt16} {s : Span} (h : s.Zeros w) : s.Zeros (w ++ v) := by
  obtain ⟨front, back, rfl, hstart⟩ := h
  exact ⟨front, back ++ v, List.append_assoc .., hstart⟩

theorem Span.Last.zeros {w : List UInt16} {s : Span} (h : s.Last w) : s.Zeros w := by
  obtain ⟨front, rfl, hstart⟩ := h
  exact ⟨front, [], (List.append_nil _).symm, hstart⟩

theorem Span.Last.grow {w : List UInt16} {s : Span} (h : s.len = 0 ∨ s.Last w) :
    (if s.len = 0 then (⟨w.length, 1⟩ : Span) else ⟨s.start, s.len + 1⟩).Last (w ++ [0]) := by
  split_ifs with hlen
  · exact ⟨w, rfl, rfl⟩
  · obtain ⟨front, rfl, hstart⟩ := h.resolve_left hlen
    refine ⟨front, ?_, hstart⟩
    rw [List.append_assoc, ← List.replicate_succ']

theorem longestZeros_zeros (segments : List UInt16) : (longestZeros segments).Zeros segments := by
  refine (foldl_zipIdx (motive := fun w (b : Span × Span) => b.1.Zeros w ∧ (b.2.len = 0 ∨ b.2.Last w))
    ⟨⟨[], [], rfl, rfl⟩, .inl rfl⟩ ?_ segments).1
  rintro w a ⟨longest, current⟩ ⟨hl, hc⟩
  dsimp only at hl hc ⊢
  by_cases ha : a = 0
  · subst ha
    rw [if_pos rfl]
    have hgrow := Span.Last.grow hc
    generalize (if current.len = 0 then (⟨w.length, 1⟩ : Span) else ⟨current.start, current.len + 1⟩) = grown
      at hgrow ⊢
    refine ⟨?_, .inr hgrow⟩
    split_ifs
    · exact hgrow.zeros
    · exact hl.append
  · rw [if_neg ha]
    exact ⟨hl.append, .inl rfl⟩

theorem readOctets_displayV4 {octets : List UInt8} (hlen : octets.length = 4) :
    readOctets (displayV4 octets) = some (octets.map UInt8.toNat) := by
  rw [displayV4_eq]
  exact readOctets_writeOctets ((List.length_map _).trans hlen) lt_of_mem_octets

theorem octetPair (s : UInt16) : (s >>> 8).toUInt8.toNat * 256 + s.toUInt8.toNat = s.toNat := by
  have hs := s.toNat_lt
  have hhigh : (s >>> 8).toUInt8.toNat = s.toNat / 256 := by
    rw [UInt16.toNat_toUInt8, UInt16.toNat_shiftRight]
    change s.toNat >>> 8 % 256 = _
    rw [Nat.shiftRight_eq_div_pow]
    omega
  rw [hhigh, UInt16.toNat_toUInt8]
  omega

theorem readSegments_compressed {segments : List UInt16} {zeros : Span} (hlen : segments.length = 8)
    (h : zeros.Zeros segments) (hzeros : 1 < zeros.len) :
    readSegments (displaySegments (segments.take zeros.start) ++ bytes "::" ++
      displaySegments (segments.drop (zeros.start + zeros.len))) = some (segments.map UInt16.toNat) := by
  obtain ⟨start, len⟩ := zeros
  obtain ⟨front, back, rfl, rfl⟩ := h
  dsimp only at hlen hzeros ⊢
  rw [List.length_append, List.length_append, List.length_replicate] at hlen
  have hfront : (front ++ List.replicate len 0 ++ back).take front.length = front := by
    rw [List.append_assoc, List.take_left]
  have hback : (front ++ List.replicate len 0 ++ back).drop (front.length + len) = back := by
    refine List.drop_left' ?_
    rw [List.length_append, List.length_replicate]
  have hshort : (front.map UInt16.toNat).length + (back.map UInt16.toNat).length ≤ 7 := by
    rw [List.length_map, List.length_map]
    omega
  have hread := readSegments_double hshort lt_of_mem_segments lt_of_mem_segments
  rw [hfront, hback, displaySegments_eq, displaySegments_eq, List.append_assoc]
  refine hread.trans ?_
  rw [List.length_map, List.length_map, List.map_append, List.map_append, List.map_replicate]
  have hrest : 8 - front.length - back.length = len := by omega
  rw [hrest]
  rfl

theorem readSegments_displayV6 {segments : List UInt16} (hlen : segments.length = 8) :
    readSegments (displayV6 segments) = some (segments.map UInt16.toNat) := by
  unfold displayV6
  split
  next ab cd =>
    have hlt : ∀ n ∈ [(ab >>> 8).toUInt8, ab.toUInt8, (cd >>> 8).toUInt8, cd.toUInt8].map UInt8.toNat, n < 256 :=
      lt_of_mem_octets
    have hffff : 65535 < 65536 := by decide
    have hread := readSegments_octets hffff rfl hlt
    rw [displayV4_eq]
    refine hread.trans ?_
    simp only [octetPairs, octetPair, List.map_cons, List.map_nil]
    rfl
  · dsimp only
    split_ifs with hzeros
    · exact readSegments_compressed hlen (longestZeros_zeros segments) hzeros
    · rw [displaySegments_eq]
      exact readSegments_writeGroups ((List.length_map _).trans hlen) lt_of_mem_segments

theorem readIp_display (ip : IpAddr) : readIp ip.isIpv4 ip.display = some ip := by
  cases ip with
  | v4 octets =>
    change (readOctets (displayV4 octets.toList)).bind _ = _
    rw [readOctets_displayV4 octets.length_toList, Option.bind_some, toVector_toNat fun o => UInt8.ofNat_toNat]
    rfl
  | v6 segments =>
    change (readSegments (displayV6 segments.toList)).bind _ = _
    rw [readSegments_displayV6 segments.length_toList, Option.bind_some, toVector_toNat fun s => UInt16.ofNat_toNat]
    rfl

theorem colon_mem_displayV6 {segments : List UInt16} (hlen : segments.length = 8) : 58 ∈ displayV6 segments := by
  unfold displayV6
  split
  · exact List.mem_append_left _ (by decide)
  · dsimp only
    split_ifs
    · exact List.mem_append_left _ (List.mem_append_right _ (by decide))
    · cases segments with
      | nil => cases hlen
      | cons s segments =>
        cases segments with
        | nil => cases hlen
        | cons s' segments =>
          rw [displaySegments_eq, List.map_cons, List.map_cons]
          unfold writeGroups
          rw [List.map_cons, List.map_cons, intercalate_cons _ (List.cons_ne_nil _ _)]
          exact List.mem_append_right _ (List.mem_cons_self ..)

theorem readIp_other {isIpv4 : Bool} {ip : IpAddr} (h : isIpv4 ≠ ip.isIpv4) : readIp isIpv4 ip.display = none := by
  cases ip with
  | v4 octets =>
    obtain rfl := (Bool.eq_false_iff.mpr h : isIpv4 = false)
    change (readSegments (displayV4 octets.toList)).bind _ = none
    rw [displayV4_eq, readSegments_writeOctets ((List.length_map _).trans octets.length_toList) lt_of_mem_octets]
    rfl
  | v6 segments =>
    obtain rfl := (Bool.eq_true_of_not_eq_false h : isIpv4 = true)
    change (readOctets (displayV6 segments.toList)).bind _ = none
    rw [readOctets_eq_none (colon_mem_displayV6 segments.length_toList) (by decide) (by decide)]
    rfl

section

variable {b : UInt8} (hb : digitValue b = none) (hdot : b ≠ 46)
include hb hdot

theorem not_mem_displayV4 (octets : List UInt8) : b ∉ displayV4 octets :=
  displayV4_eq octets ▸ not_mem_writeOctets hb hdot _

theorem not_mem_display (hcolon : b ≠ 58) (hf : b ≠ 102) (ip : IpAddr) : b ∉ ip.display := by
  have hsegments (segments : List UInt16) : b ∉ displaySegments segments := by
    rw [displaySegments_eq]
    refine not_mem_intercalate hcolon fun w hw => ?_
    obtain ⟨n, -, rfl⟩ := List.mem_map.mp hw
    exact not_mem_digits (by decide) (by decide) hb n
  have hdouble : b ∉ bytes "::" := fun h => hcolon (List.eq_of_mem_replicate (n := 2) h)
  cases ip with
  | v4 octets => exact not_mem_displayV4 hb hdot _
  | v6 segments =>
    unfold IpAddr.display displayV6
    dsimp only
    split
    · rw [List.mem_append, not_or]
      refine ⟨?_, not_mem_displayV4 hb hdot _⟩
      have hmapped : bytes "::ffff:" = [58, 58, 102, 102, 102, 102, 58] := rfl
      simp [hmapped, hcolon, hf]
    · split_ifs
      · simp only [List.mem_append, not_or]
        exact ⟨⟨hsegments _, hdouble⟩, hsegments _⟩
      · exact hsegments _

end

theorem length_decimal_le {n k : Nat} (hk : 0 < k) (hn : n < 10 ^ k) : (decimal n).length ≤ k :=
  length_digits_le (by decide) hk hn

theorem length_displayV4_le {octets : List UInt8} (hlen : octets.length = 4) : (displayV4 octets).length ≤ 15 := by
  have hwords : ∀ w ∈ (octets.map UInt8.toNat).map (digits 10), w.length ≤ 3 := by
    intro w hw
    obtain ⟨n, hn, rfl⟩ := List.mem_map.mp hw
    have := lt_of_mem_octets n hn
    exact length_digits_le (by decide) (by decide) (by omega)
  have hne : (octets.map UInt8.toNat).map (digits 10) ≠ [] := by
    rw [Ne, List.map_eq_nil_iff, List.map_eq_nil_iff]
    exact List.ne_nil_of_length_eq_add_one hlen
  have hlt : (writeOctets _).length < _ := length_intercalate_lt hwords hne
  rw [List.length_map, List.length_map, hlen] at hlt
  rw [displayV4_eq]
  omega

theorem length_displaySegments_le (segments : List UInt16) :
    (displaySegments segments).length ≤ 5 * segments.length - 1 := by
  by_cases hnil : segments = []
  · rw [hnil]
    exact Nat.le_refl 0
  · have hwords : ∀ w ∈ (segments.map UInt16.toNat).map (digits 16), w.length ≤ 4 := by
      intro w hw
      obtain ⟨n, hn, rfl⟩ := List.mem_map.mp hw
      have := lt_of_mem_segments n hn
      exact length_digits_le (by decide) (by decide) (by omega)
    have hne : (segments.map UInt16.toNat).map (digits 16) ≠ [] := by
      rwa [Ne, List.map_eq_nil_iff, List.map_eq_nil_iff]
    have hlt : (writeGroups _).length < _ := length_intercalate_lt hwords hne
    rw [List.length_map, List.length_map] at hlt
    rw [displaySegments_eq]
    omega

theorem length_display_le (ip : IpAddr) : ip.display.length ≤ 39 := by
  cases ip with
  | v4 octets => exact (length_displayV4_le octets.length_toList).trans (by decide)
  | v6 segments =>
    have hlen := segments.length_toList
    unfold IpAddr.display
    dsimp only
    generalize segments.toList = segments at hlen
    unfold displayV6
    split
    · rw [List.length_append]
      exact (Nat.add_le_add_left (length_displayV4_le rfl) 7).trans (by decide)
    · dsimp only
      split_ifs with hzeros
      · have hend := (longestZeros_zeros segments).end_le
        have hfront := length_displaySegments_le (segments.take (longestZeros segments).start)
        have hback := length_displaySegments_le
          (segments.drop ((longestZeros segments).start + (longestZeros segments).len))
        have hdouble : (bytes "::").length = 2 := rfl
        rw [List.length_take] at hfront
        rw [List.length_drop] at hback
        rw [List.length_append, List.length_append, hdouble]
        omega
      · have := length_displaySegments_le segments
        omega

def readFamily (w : Bytes) : Option Bool :=
  if w = bytes "TCP4" then some true else if w = bytes "TCP6" then some false else none

def readPort (w : Bytes) : Option UInt16 := (readNumber 10 5 65536 w).map Nat.toUInt16

def readProxyWords : List Bytes → Option (SocketAddr × SocketAddr)
  | [proxy, family, src, dst, srcPort, dstPort] =>
    if proxy = bytes "PROXY" then do
      let isIpv4 ← readFamily family
      let src ← readIp isIpv4 src
      let dst ← readIp isIpv4 dst
      let srcPort ← readPort srcPort
      let dstPort ← readPort dstPort
      return (⟨src, srcPort⟩, ⟨dst, dstPort⟩)
    else none
  | _ => none

def readProxyLine (w : Bytes) : Option (SocketAddr × SocketAddr × Bytes) :=
  match w.span (· ≠ 10) with
  | (_, []) => none
  | (line, _ :: rest) =>
    if line.getLast? = some 13 then
      (readProxyWords (line.dropLast.splitOn 32)).map fun (src, dst) => (src, dst, rest)
    else none

theorem readPort_decimal (port : UInt16) : readPort (decimal port.toNat) = some port := by
  have hlt := port.toNat_lt
  have hread : readNumber 10 5 65536 (digits 10 port.toNat) = some port.toNat :=
    readNumber_digits (by decide) (by decide) (by decide) (by omega) hlt
  change (readNumber 10 5 65536 (digits 10 port.toNat)).map _ = _
  rw [hread]
  exact congrArg some UInt16.ofNat_toNat

theorem span_newline {u : Bytes} (h : (10 : UInt8) ∉ u) (v : Bytes) : (u ++ 10 :: v).span (· ≠ 10) = (u, 10 :: v) := by
  have hall : ∀ b ∈ u, decide (b ≠ 10) = true := fun b hb => decide_eq_true fun hb' => h (hb' ▸ hb)
  rw [List.span_eq_takeWhile_dropWhile, List.takeWhile_append_of_pos hall, List.dropWhile_append_of_pos hall]
  simp

def proxyWords (clientAddr localAddr : SocketAddr) : List Bytes :=
  [bytes "PROXY", bytes "TCP" ++ [if clientAddr.ip.isIpv4 then 52 else 54], clientAddr.ip.display,
    localAddr.ip.display, decimal clientAddr.port.toNat, decimal localAddr.port.toNat]

theorem proxyLine_words (clientAddr localAddr : SocketAddr) :
    proxyLine clientAddr localAddr = [32].intercalate (proxyWords clientAddr localAddr) ++ [13, 10] := by
  have hproxy : bytes "PROXY TCP" = bytes "PROXY" ++ 32 :: bytes "TCP" := rfl
  unfold proxyLine proxyWords
  rw [intercalate_cons _ (List.cons_ne_nil _ _), intercalate_cons _ (List.cons_ne_nil _ _),
    intercalate_cons _ (List.cons_ne_nil _ _), intercalate_cons _ (List.cons_ne_nil _ _),
    intercalate_cons _ (List.cons_ne_nil _ _), List.intercalate_singleton, hproxy]
  simp only [List.append_assoc, List.cons_append, List.nil_append]

theorem not_mem_proxyWords {b : UInt8} (hb : b = 32 ∨ b = 10) (clientAddr localAddr : SocketAddr) :
    ∀ w ∈ proxyWords clientAddr localAddr, b ∉ w := by
  have hdisplay (ip : IpAddr) : b ∉ ip.display := by
    rcases hb with rfl | rfl <;> exact not_mem_display (by decide) (by decide) (by decide) (by decide) ip
  have hdecimal (n : Nat) : b ∉ digits 10 n := by
    rcases hb with rfl | rfl <;> exact not_mem_digits (by decide) (by decide) (by decide) n
  have hwords : b ∉ bytes "PROXY" ∧ b ∉ bytes "TCP" ++ [if clientAddr.ip.isIpv4 then 52 else 54] := by
    rcases hb with rfl | rfl <;> split <;> decide
  simp only [proxyWords, List.forall_mem_cons, List.not_mem_nil, false_imp_iff, implies_true, and_true]
  exact ⟨hwords.1, hwords.2, hdisplay _, hdisplay _, hdecimal _, hdecimal _⟩

theorem readProxyWords_proxyWords (clientAddr localAddr : SocketAddr) :
    readProxyWords (proxyWords clientAddr localAddr) =
      if clientAddr.ip.isIpv4 = localAddr.ip.isIpv4 then some (clientAddr, localAddr) else none := by
  have hfamily : readFamily (bytes "TCP" ++ [if clientAddr.ip.isIpv4 then 52 else 54]) =
      some clientAddr.ip.isIpv4 := by
    cases clientAddr.ip.isIpv4 <;> rfl
  unfold proxyWords readProxyWords
  dsimp only
  rw [if_pos rfl, hfamily, readPort_decimal, readPort_decimal, Option.bind_eq_bind, Option.bind_some,
    readIp_display, Option.bind_eq_bind, Option.bind_some]
  split_ifs with hsame
  · rw [hsame, readIp_display]
    rfl
  · rw [readIp_other hsame]
    rfl

/-- The line is read as the addresses that it was written for, where they are of one family. -/
theorem readProxyLine_proxyLine (clientAddr localAddr : SocketAddr) (rest : Bytes) :
    readProxyLine (proxyLine clientAddr localAddr ++ rest) =
      if clientAddr.ip.isIpv4 = localAddr.ip.isIpv4 then some (clientAddr, localAddr, rest) else none := by
  have hfree : (10 : UInt8) ∉ [32].intercalate (proxyWords clientAddr localAddr) ++ [13] := by
    rw [List.mem_append, not_or]
    exact ⟨not_mem_intercalate (by decide) (not_mem_proxyWords (.inr rfl) clientAddr localAddr), by decide⟩
  have hspan : (proxyLine clientAddr localAddr ++ rest).span (· ≠ 10) =
      ([32].intercalate (proxyWords clientAddr localAddr) ++ [13], 10 :: rest) := by
    rw [proxyLine_words, List.append_cons _ 13 [10], List.append_assoc]
    exact span_newline hfree rest
  unfold readProxyLine
  rw [hspan]
  dsimp only
  rw [List.getLast?_concat, if_pos rfl, List.dropLast_concat,
    List.splitOn_intercalate 32 (not_mem_proxyWords (.inl rfl) clientAddr localAddr) (List.cons_ne_nil _ _),
    readProxyWords_proxyWords]
  split_ifs <;> rfl

theorem length_proxyLine_le (clientAddr localAddr : SocketAddr) : (proxyLine clientAddr localAddr).length ≤ 104 := by
  have hclient := length_display_le clientAddr.ip
  have hlocal := length_display_le localAddr.ip
  have hport (port : UInt16) : (decimal port.toNat).length ≤ 5 :=
    length_decimal_le (by decide) (Nat.lt_trans port.toNat_lt (by decide))
  have hclientPort := hport clientAddr.port
  have hlocalPort := hport localAddr.port
  have hproxy : (bytes "PROXY TCP").length = 9 := rfl
  unfold proxyLine
  simp only [List.length_append, List.length_cons, List.length_nil, hproxy]
  omega

theorem readProxyLine_open {w : Bytes} (h : (10 : UInt8) ∉ w) : readProxyLine w = none := by
  have hall : ∀ b ∈ w, decide (b ≠ 10) = true := fun b hb => decide_eq_true fun hb' => h (hb' ▸ hb)
  have hspan : w.span (· ≠ 10) = (w, []) := by
    rw [List.span_eq_takeWhile_dropWhile, List.takeWhile_eq_self_iff.mpr hall, List.dropWhile_eq_nil_iff.mpr hall]
  unfold readProxyLine
  rw [hspan]

theorem readProxyLine_proxy {w : Bytes} {x : SocketAddr × SocketAddr × Bytes} (h : readProxyLine w = some x) :
    bytes "PROXY" <+: w := by
  have hline : (w.span (· ≠ 10)).1 <+: w := by
    rw [List.span_eq_takeWhile_dropWhile]
    exact List.takeWhile_prefix _
  unfold readProxyLine at h
  split at h
  · cases h
  next line b rest hspan =>
    rw [hspan] at hline
    split_ifs at h
    obtain ⟨y, hy, -⟩ := Option.map_eq_some_iff.mp h
    unfold readProxyWords at hy
    split at hy
    · split_ifs at hy with hproxy
      next proxy family src dst srcPort dstPort hwords =>
        have hjoin : line.dropLast = bytes "PROXY" ++ 32 :: [32].intercalate [family, src, dst, srcPort, dstPort] := by
          rw [← hproxy, ← intercalate_cons proxy (List.cons_ne_nil _ _), ← hwords, List.intercalate_splitOn]
        exact ((hjoin ▸ List.prefix_append _ _).trans line.dropLast_prefix).trans hline
    · cases hy

section

variable {Cert Verifier : Type}

/-- What has been sent to the target of a connection, over TCP or on a stream of a session. -/
inductive Heard : Incoming Cert Verifier → List Sent → Prop where
  | tcp (env : Incoming Cert Verifier) (evs : List TcpEvent) :
      Heard env ((handleTcpConnection env).final (.accepted env.config) evs).toServer
  | stream (env : QuicIncoming Cert Verifier) (evs : List SessionEvent) {i : Nat} {c : Connection} :
      ((handleQuicSession env).final .new evs).streams[i]? = some c → Heard (env.stream i) c.toServer

variable {env : Incoming Cert Verifier} {sent : List Sent}

theorem Heard.guards (h : Heard env sent) : env.Guards sent := by
  cases h with
  | tcp _ evs =>
    rcases (heldTcp_run env evs).guards with hnone | ⟨-, hguards⟩
    · exact .inl hnone
    · exact hguards
  | stream env evs hc =>
    rw [(stream_final env evs hc).1]
    exact (held_run _ .asyncRead .asyncWrite _ _).guards

theorem HeadedBy.head?_eq {streamOpen : Bytes} {isC2s : Bool} (h : HeadedBy streamOpen isC2s) :
    streamOpen.head? = some lt := by
  obtain ⟨hd, hh⟩ := h
  rename_i decls header
  cases decls with
  | nil =>
    obtain ⟨u, rfl⟩ := hh
    rfl
  | cons d decls =>
    obtain ⟨u, rfl⟩ := hd d (List.mem_cons_self ..)
    rfl

theorem readProxyLine_headed {streamOpen w : Bytes} (h : streamOpen.head? = some lt)
    (hw : w <+: streamOpen ∨ streamOpen <+: w) : readProxyLine w = none := by
  cases hread : readProxyLine w with
  | none => rfl
  | some x =>
    obtain ⟨u, rfl⟩ := readProxyLine_proxy hread
    rcases hw with ⟨v, rfl⟩ | ⟨v, hv⟩
    · cases h
    · cases streamOpen with
      | nil => cases h
      | cons b streamOpen =>
        obtain rfl := Option.some.inj h
        cases hv

theorem proxyLine_comparable {clientAddr localAddr : SocketAddr} {streamOpen w : Bytes}
    (hw : w <+: proxyLine clientAddr localAddr ++ streamOpen ∨ proxyLine clientAddr localAddr ++ streamOpen <+: w) :
    (∃ rest, w = proxyLine clientAddr localAddr ++ rest ∧ (rest <+: streamOpen ∨ streamOpen <+: rest)) ∨
      w.length < (proxyLine clientAddr localAddr).length ∧ (10 : UInt8) ∉ w := by
  obtain ⟨u, hline, hfree⟩ := proxyLine_eq clientAddr localAddr
  rcases hw with hw | ⟨v, hv⟩
  · rcases Nat.lt_or_ge w.length (proxyLine clientAddr localAddr).length with hlt | hge
    · have hshort : w <+: proxyLine clientAddr localAddr :=
        List.prefix_of_prefix_length_le hw (List.prefix_append _ _) hlt.le
      rw [hline] at hshort hlt
      have hu : w <+: u := by
        rw [List.length_append, List.length_singleton] at hlt
        exact List.prefix_of_prefix_length_le hshort (List.prefix_append _ _) (Nat.le_of_lt_succ hlt)
      exact .inr ⟨hline ▸ hlt, fun hmem => hfree (hu.subset hmem)⟩
    · obtain ⟨rest, rfl⟩ := List.prefix_of_prefix_length_le (List.prefix_append _ _) hw hge
      exact .inl ⟨rest, rfl, .inl ((List.prefix_append_right_inj _).mp hw)⟩
  · exact .inl ⟨streamOpen ++ v, by rw [← hv, List.append_assoc], .inr (List.prefix_append _ _)⟩

/-- The target reads the line as soon as it is whole, and as the addresses of the connection; behind it there is
the header. -/
theorem Incoming.Guards.read (h : env.Guards sent) :
    readProxyLine (rawBytes sent) =
        (if env.config.proxy = true ∧ env.clientAddr.ip.isIpv4 = env.localAddr.ip.isIpv4 ∧
            (proxyLine env.clientAddr env.localAddr).length ≤ (rawBytes sent).length then
          some (env.clientAddr, env.localAddr,
            (rawBytes sent).drop (proxyLine env.clientAddr env.localAddr).length)
        else none) ∧
      ∀ src dst rest, readProxyLine (rawBytes sent) = some (src, dst, rest) →
        ∃ streamOpen isC2s, HeadedBy streamOpen isC2s ∧ (rest <+: streamOpen ∨ streamOpen <+: rest) := by
  have hline : (proxyLine env.clientAddr env.localAddr).length ≠ 0 := by
    obtain ⟨u, hu, -⟩ := proxyLine_eq env.clientAddr env.localAddr
    rw [hu, List.length_append]
    exact Nat.succ_ne_zero _
  rcases h with rfl | ⟨streamOpen, isC2s, ⟨hheaded, -, -⟩, hsent⟩
  · exact ⟨(if_neg fun h => hline (Nat.le_zero.mp h.2.2)).symm, fun _ _ _ h => nomatch h⟩
  · unfold Incoming.opening Incoming.proxySent at hsent
    rw [rawBytes_append, rawBytes_singleton] at hsent
    by_cases hproxy : env.config.proxy = true
    · rw [if_pos hproxy, rawBytes_singleton] at hsent
      rcases proxyLine_comparable hsent with ⟨rest, hrest, hbehind⟩ | ⟨hlt, hopen⟩
      · rw [hrest, readProxyLine_proxyLine, List.drop_left, List.length_append]
        by_cases hsame : env.clientAddr.ip.isIpv4 = env.localAddr.ip.isIpv4
        · rw [if_pos hsame, if_pos ⟨hproxy, hsame, Nat.le_add_right _ _⟩]
          refine ⟨rfl, fun src dst rest' h => ?_⟩
          obtain rfl := (Prod.mk.inj (Prod.mk.inj (Option.some.inj h)).2).2
          exact ⟨streamOpen, isC2s, hheaded, hbehind⟩
        · rw [if_neg hsame, if_neg fun h => hsame h.2.1]
          exact ⟨rfl, fun _ _ _ h => nomatch h⟩
      · rw [readProxyLine_open hopen, if_neg fun h => Nat.not_le.mpr hlt h.2.2]
        exact ⟨rfl, fun _ _ _ h => nomatch h⟩
    · rw [if_neg hproxy] at hsent
      rw [readProxyLine_headed hheaded.head?_eq hsent, if_neg fun h => hproxy h.1]
      exact ⟨rfl, fun _ _ _ h => nomatch h⟩

/-- Over every transport, a target reads the addresses of the connection from the PROXY line, as soon as it
has all of it, and behind the line the header; it reads none where none are sent. -/
theorem target_reads_proxy (h : Heard env sent) :
    (proxyLine env.clientAddr env.localAddr).length ≤ 104 ∧
      readProxyLine (rawBytes sent) =
        (if env.config.proxy = true ∧ env.clientAddr.ip.isIpv4 = env.localAddr.ip.isIpv4 ∧
            (proxyLine env.clientAddr env.localAddr).length ≤ (rawBytes sent).length then
          some (env.clientAddr, env.localAddr,
            (rawBytes sent).drop (proxyLine env.clientAddr env.localAddr).length)
        else none) ∧
      ∀ src dst rest, readProxyLine (rawBytes sent) = some (src, dst, rest) →
        ∃ streamOpen isC2s, HeadedBy streamOpen isC2s ∧ (rest <+: streamOpen ∨ streamOpen <+: rest) :=
  ⟨length_proxyLine_le env.clientAddr env.localAddr, h.guards.read⟩

end

def proxyTarget : Incoming Unit Unit where
  config := ⟨128, none, some (.socketAddr ⟨.ofV4 127 0 0 1, 5222⟩), true⟩
  localAddr := ⟨.v6 #v[0x2001, 0xdb8, 0, 0, 0, 0, 0, 1], 5223⟩
  clientAddr := ⟨.v6 #v[0, 0, 0, 0, 0, 0xffff, 0xa00, 2], 4000⟩
  peerCertificates := none
  getXmppConnections := fun _ _ => .err .net
  verifyCert := fun _ _ _ => .err .pki
  connect := fun _ => .ok ()
  proxyTaken := none
  openRes := .done
  trace := false

def proxyRun : List TcpEvent :=
  [.tls (.hello 0x16 3 1), .tls .accepted, .tls (.sniffed false)] ++
    (bytes "<stream:stream xmlns='jabber:client'>").map fun b => .tls (.poll (.client (.byte b) .done))

theorem target_reads_proxy_mapped :
    readProxyLine (rawBytes
        ((handleTcpConnection proxyTarget).final (.accepted proxyTarget.config) proxyRun).toServer) =
      some (proxyTarget.clientAddr, proxyTarget.localAddr, bytes "<stream:stream xmlns='jabber:client'>") :=
  (target_reads_proxy (.tcp proxyTarget proxyRun)).2.1.trans (by decide +kernel)

end XmppProxy
