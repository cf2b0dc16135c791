import Mathlib.Algebra.Group.Nat.Defs
import Mathlib.Data.List.Basic

/-! Numbers and IP addresses as text: how a reader takes them apart again. -/

namespace XmppProxy.Lib

def digits (base n : Nat) : List UInt8 := (Nat.toDigits base n).map Char.toUInt8

def digitValue (b : UInt8) : Option Nat :=
  if 48 ≤ b ∧ b ≤ 57 then some (b.toNat - 48)
  else if 97 ≤ b ∧ b ≤ 102 then some (b.toNat - 87)
  else if 65 ≤ b ∧ b ≤ 70 then some (b.toNat - 55)
  else none

def readDigits (base acc : Nat) : List UInt8 → Option Nat
  | [] => some acc
  | b :: w =>
    match digitValue b with
    | some d => if d < base then readDigits base (acc * base + d) w else none
    | none => none

def readNumber (base width limit : Nat) (w : List UInt8) : Option Nat :=
  if w = [] ∨ width < w.length then none
  else
    match readDigits base 0 w with
    | some n => if n < limit then some n else none
    | none => none

theorem digitValue_digitChar : ∀ d < 16, digitValue (Nat.digitChar d).toUInt8 = some d := by decide

section

variable {base : Nat}

theorem readDigits_append (acc : Nat) (u v : List UInt8) :
    readDigits base acc (u ++ v) = (readDigits base acc u).bind fun n => readDigits base n v := by
  induction u generalizing acc with
  | nil => rfl
  | cons b u ih =>
    rw [List.cons_append, readDigits, readDigits]
    split
    · split_ifs
      · exact ih _
      · rfl
    · rfl

theorem readDigits_digitChar (hb : base ≤ 16) {d : Nat} (hd : d < base) (acc : Nat) :
    readDigits base acc [(Nat.digitChar d).toUInt8] = some (acc * base + d) := by
  rw [readDigits, digitValue_digitChar d (Nat.lt_of_lt_of_le hd hb)]
  exact if_pos hd

variable (hb : 1 < base) (hb' : base ≤ 16)
include hb hb'

theorem readDigits_digits (n : Nat) : readDigits base 0 (digits base n) = some n := by
  induction n using Nat.strongRecOn with
  | ind n ih =>
    unfold digits
    rw [Nat.toDigits_eq_if hb]
    split_ifs with hlt
    · exact (readDigits_digitChar hb' hlt 0).trans (by rw [Nat.zero_mul, Nat.zero_add])
    · have hdiv : n / base < n := Nat.div_lt_self (by omega) hb
      rw [List.map_append, readDigits_append]
      change (readDigits base 0 (digits base (n / base))).bind _ = _
      rw [ih _ hdiv, Option.bind_some, List.map_singleton,
        readDigits_digitChar hb' (Nat.mod_lt _ (by omega)), Nat.div_add_mod']

omit hb' in
theorem length_digits_le {n k : Nat} (hk : 0 < k) (hn : n < base ^ k) : (digits base n).length ≤ k := by
  unfold digits
  rw [List.length_map]
  exact (Nat.length_toDigits_le_iff hb hk).mpr hn

theorem readNumber_digits {n width limit : Nat} (hwidth : 0 < width) (hn : n < base ^ width) (hlimit : n < limit) :
    readNumber base width limit (digits base n) = some n := by
  have hne : digits base n ≠ [] := fun h => Nat.toDigits_ne_nil (List.map_eq_nil_iff.mp h)
  have hlen := length_digits_le hb hwidth hn
  unfold readNumber
  rw [if_neg (by rintro (h | h); exacts [hne h, absurd hlen (Nat.not_le.mpr h)]), readDigits_digits hb hb']
  exact if_pos hlimit

omit hb hb' in
theorem digitValue_of_readDigits {acc n : Nat} {w : List UInt8} (h : readDigits base acc w = some n) :
    ∀ b ∈ w, digitValue b ≠ none := by
  induction w generalizing acc with
  | nil => exact fun b hb => nomatch hb
  | cons c w ih =>
    rw [readDigits] at h
    cases hc : digitValue c with
    | none =>
      rw [hc] at h
      cases h
    | some d =>
      rw [hc] at h
      dsimp only at h
      split_ifs at h
      refine List.forall_mem_cons.mpr ⟨?_, ih h⟩
      rw [hc]
      simp

theorem not_mem_digits {b : UInt8} (h : digitValue b = none) (n : Nat) : b ∉ digits base n :=
  fun hmem => digitValue_of_readDigits (readDigits_digits hb hb' n) b hmem h

end

theorem intercalate_cons {sep : UInt8} (w : List UInt8) {ws : List (List UInt8)} (h : ws ≠ []) :
    [sep].intercalate (w :: ws) = w ++ sep :: [sep].intercalate ws := by
  cases ws with
  | nil => exact absurd rfl h
  | cons w' ws => rfl

theorem intercalate_ne_nil {sep : UInt8} {ws : List (List UInt8)} (hne : ws ≠ []) (h : ∀ w ∈ ws, w ≠ []) :
    [sep].intercalate ws ≠ [] := by
  cases ws with
  | nil => exact absurd rfl hne
  | cons w ws =>
    obtain ⟨hw, -⟩ := List.forall_mem_cons.mp h
    cases ws with
    | nil => rwa [List.intercalate_singleton]
    | cons w' ws =>
      rw [intercalate_cons w (List.cons_ne_nil w' ws)]
      exact List.append_ne_nil_of_left_ne_nil hw _

theorem not_mem_intercalate {sep x : UInt8} (hx : x ≠ sep) {ws : List (List UInt8)} (h : ∀ w ∈ ws, x ∉ w) :
    x ∉ [sep].intercalate ws := by
  induction ws with
  | nil => exact List.not_mem_nil
  | cons w ws ih =>
    obtain ⟨hw, hws⟩ := List.forall_mem_cons.mp h
    cases ws with
    | nil => rwa [List.intercalate_singleton]
    | cons w' ws =>
      rw [intercalate_cons w (List.cons_ne_nil w' ws), List.mem_append, List.mem_cons, not_or, not_or]
      exact ⟨hw, hx, ih hws⟩

theorem length_intercalate_lt {sep : UInt8} {ws : List (List UInt8)} {k : Nat} (h : ∀ w ∈ ws, w.length ≤ k)
    (hne : ws ≠ []) : ([sep].intercalate ws).length < (k + 1) * ws.length := by
  induction ws with
  | nil => exact absurd rfl hne
  | cons w ws ih =>
    obtain ⟨hw, hws⟩ := List.forall_mem_cons.mp h
    cases ws with
    | nil =>
      rw [List.intercalate_singleton, List.length_singleton]
      omega
    | cons w' ws =>
      have ih := ih hws (List.cons_ne_nil w' ws)
      rw [intercalate_cons w (List.cons_ne_nil w' ws), List.length_append, List.length_cons, List.length_cons,
        Nat.mul_succ]
      omega

def readOctets (w : List UInt8) : Option (List Nat) :=
  match (w.splitOn 46).mapM (readNumber 10 3 256) with
  | some octets => if octets.length = 4 then some octets else none
  | none => none

def writeOctets (octets : List Nat) : List UInt8 := [46].intercalate (octets.map (digits 10))

theorem mapM_map {α β : Type} {f : α → β} {g : β → Option α} {as : List α} (h : ∀ a ∈ as, g (f a) = some a) :
    (as.map f).mapM g = some as := by
  induction as with
  | nil => rfl
  | cons a as ih =>
    obtain ⟨ha, has⟩ := List.forall_mem_cons.mp h
    rw [List.map_cons, List.mapM_cons, ha, ih has]
    rfl

theorem readNumber_octet {n : Nat} (h : n < 256) : readNumber 10 3 256 (digits 10 n) = some n :=
  readNumber_digits (by decide) (by decide) (by decide) (by omega) h

theorem readOctets_writeOctets {octets : List Nat} (hlen : octets.length = 4) (h : ∀ n ∈ octets, n < 256) :
    readOctets (writeOctets octets) = some octets := by
  have hsplit : (writeOctets octets).splitOn 46 = octets.map (digits 10) := by
    refine List.splitOn_intercalate 46 (fun w hw => ?_) fun hnil => ?_
    · obtain ⟨n, -, rfl⟩ := List.mem_map.mp hw
      exact not_mem_digits (by decide) (by decide) (by decide) n
    · rw [List.map_eq_nil_iff.mp hnil] at hlen
      cases hlen
  unfold readOctets
  rw [hsplit, mapM_map fun n hn => readNumber_octet (h n hn)]
  exact if_pos hlen

theorem exists_of_mapM {α β : Type} {g : α → Option β} {as : List α} {bs : List β} (h : as.mapM g = some bs) :
    ∀ a ∈ as, ∃ b, g a = some b := by
  induction as generalizing bs with
  | nil => exact fun a ha => nomatch ha
  | cons a as ih =>
    simp only [List.mapM_cons, Option.bind_eq_bind, Option.bind_eq_some_iff] at h
    obtain ⟨b, hb, bs', hbs', -⟩ := h
    exact List.forall_mem_cons.mpr ⟨⟨b, hb⟩, ih hbs'⟩

theorem not_mem_of_readNumber {base width limit n : Nat} {w : List UInt8} (h : readNumber base width limit w = some n)
    {b : UInt8} (hb : digitValue b = none) : b ∉ w := by
  unfold readNumber at h
  split_ifs at h
  split at h
  next hdigits => exact fun hmem => digitValue_of_readDigits hdigits b hmem hb
  · cases h

theorem readOctets_eq_none {w : List UInt8} {b : UInt8} (hmem : b ∈ w) (hb : digitValue b = none) (hdot : b ≠ 46) :
    readOctets w = none := by
  unfold readOctets
  split
  next octets hoctets =>
    refine absurd hmem ?_
    have hjoin : [46].intercalate (w.splitOn 46) = w := List.intercalate_splitOn 46
    rw [← hjoin]
    refine not_mem_intercalate hdot fun v hv => ?_
    obtain ⟨n, hn⟩ := exists_of_mapM hoctets v hv
    exact not_mem_of_readNumber hn hb
  · rfl

def octetPairs : List Nat → List Nat
  | [a, b, c, d] => [a * 256 + b, c * 256 + d]
  | _ => []

/-- Groups of a number each; the last one may be an IPv4 address, which makes two. -/
def readGroups (w : List UInt8) : Option (List Nat) :=
  if w = [] then some []
  else
    let words := w.splitOn 58
    match words.getLast? with
    | some last =>
      if 46 ∈ last then
        match words.dropLast.mapM (readNumber 16 4 65536), readOctets last with
        | some front, some octets => some (front ++ octetPairs octets)
        | _, _ => none
      else words.mapM (readNumber 16 4 65536)
    | none => none

/-- What is in front of the first `::`, and what is behind it. -/
def cutDouble : List UInt8 → Option (List UInt8 × List UInt8)
  | [] => none
  | [_] => none
  | a :: b :: w =>
    if a = 58 ∧ b = 58 then some ([], w)
    else
      match cutDouble (b :: w) with
      | some (u, v) => some (a :: u, v)
      | none => none

/-- The eight numbers of an address, in which `::` is one zero or more. -/
def readSegments (w : List UInt8) : Option (List Nat) :=
  match cutDouble w with
  | some (u, v) =>
    match readGroups u, readGroups v with
    | some front, some back =>
      if front.length + back.length ≤ 7 then
        some (front ++ List.replicate (8 - front.length - back.length) 0 ++ back)
      else none
    | _, _ => none
  | none =>
    match readGroups w with
    | some segments => if segments.length = 8 then some segments else none
    | none => none

def writeGroups (segments : List Nat) : List UInt8 := [58].intercalate (segments.map (digits 16))

theorem readNumber_segment {n : Nat} (h : n < 65536) : readNumber 16 4 65536 (digits 16 n) = some n :=
  readNumber_digits (by decide) (by decide) (by decide) (by omega) h

theorem splitOn_writeGroups {segments : List Nat} (hne : segments ≠ []) :
    (writeGroups segments).splitOn 58 = segments.map (digits 16) := by
  refine List.splitOn_intercalate 58 (fun w hw => ?_) fun hnil => hne (List.map_eq_nil_iff.mp hnil)
  obtain ⟨n, -, rfl⟩ := List.mem_map.mp hw
  exact not_mem_digits (by decide) (by decide) (by decide) n

theorem digits_ne_nil (base n : Nat) : digits base n ≠ [] := fun h => Nat.toDigits_ne_nil (List.map_eq_nil_iff.mp h)

theorem writeGroups_ne_nil {segments : List Nat} (hne : segments ≠ []) : writeGroups segments ≠ [] := by
  refine intercalate_ne_nil (fun hnil => hne (List.map_eq_nil_iff.mp hnil)) fun w hw => ?_
  obtain ⟨n, -, rfl⟩ := List.mem_map.mp hw
  exact digits_ne_nil 16 n

theorem readGroups_writeGroups {segments : List Nat} (h : ∀ n ∈ segments, n < 65536) :
    readGroups (writeGroups segments) = some segments := by
  obtain rfl | ⟨front, last, rfl⟩ := List.eq_nil_or_concat' segments
  · rfl
  · have hne : front ++ [last] ≠ [] := List.concat_ne_nil last front
    have hdot : (46 : UInt8) ∉ digits 16 last := not_mem_digits (by decide) (by decide) (by decide) last
    unfold readGroups
    rw [if_neg (writeGroups_ne_nil hne), splitOn_writeGroups hne]
    dsimp only
    rw [List.map_append, List.map_singleton, List.getLast?_concat]
    dsimp only
    rw [if_neg hdot, ← List.map_singleton, ← List.map_append]
    exact mapM_map fun n hn => readNumber_segment (h n hn)

theorem not_mem_writeOctets {b : UInt8} (hb : digitValue b = none) (hdot : b ≠ 46) (octets : List Nat) :
    b ∉ writeOctets octets := by
  refine not_mem_intercalate hdot fun w hw => ?_
  obtain ⟨n, -, rfl⟩ := List.mem_map.mp hw
  exact not_mem_digits (by decide) (by decide) hb n

theorem dot_mem_writeOctets {octets : List Nat} (hlen : octets.length = 4) : 46 ∈ writeOctets octets := by
  obtain ⟨a, b, c, d, rfl⟩ := List.length_eq_four.mp hlen
  unfold writeOctets
  rw [List.map_cons, List.map_cons, intercalate_cons _ (List.cons_ne_nil _ _)]
  exact List.mem_append_right _ (List.mem_cons_self ..)

theorem readGroups_octets {n : Nat} (hn : n < 65536) {octets : List Nat} (hlen : octets.length = 4)
    (h : ∀ n ∈ octets, n < 256) :
    readGroups (digits 16 n ++ 58 :: writeOctets octets) = some (n :: octetPairs octets) := by
  have hcolon : (58 : UInt8) ∉ writeOctets octets := not_mem_writeOctets (by decide) (by decide) octets
  have hsplit : (digits 16 n ++ 58 :: writeOctets octets).splitOn 58 = [digits 16 n, writeOctets octets] := by
    rw [List.splitOn_append_cons_self_of_not_mem (not_mem_digits (by decide) (by decide) (by decide) n),
      List.splitOn_eq_singleton hcolon]
  have hfront : ([n].map (digits 16)).mapM (readNumber 16 4 65536) = some [n] :=
    mapM_map fun m hm => readNumber_segment (by rwa [List.mem_singleton.mp hm])
  unfold readGroups
  rw [if_neg (List.append_ne_nil_of_left_ne_nil (digits_ne_nil 16 n) _), hsplit]
  have hlast : [digits 16 n, writeOctets octets].getLast? = some (writeOctets octets) := rfl
  have hdrop : [digits 16 n, writeOctets octets].dropLast = [n].map (digits 16) := rfl
  dsimp only
  rw [hlast]
  dsimp only
  rw [if_pos (dot_mem_writeOctets hlen), hdrop, hfront, readOctets_writeOctets hlen h]
  rfl

/-- Words without `::`, that do not end in a colon either. -/
theorem cutDouble_append {u : List UInt8} (h : ¬ [58, 58] <:+: u) (hlast : u.getLast? ≠ some 58) (v : List UInt8) :
    cutDouble (u ++ 58 :: 58 :: v) = some (u, v) := by
  induction u with
  | nil => rfl
  | cons a u ih =>
    have hrest : ¬ [58, 58] <:+: u := fun hu => h (hu.trans (List.suffix_cons a u).isInfix)
    cases u with
    | nil =>
      have ha : ¬ (a = 58 ∧ (58 : UInt8) = 58) := fun ha => hlast (by rw [ha.1]; rfl)
      rw [List.cons_append, List.nil_append, cutDouble, if_neg ha, cutDouble]
      rfl
    | cons b u =>
      have hab : ¬ (a = 58 ∧ b = 58) := by
        rintro ⟨rfl, rfl⟩
        exact h (List.prefix_append [58, 58] u).isInfix
      rw [List.getLast?_cons_cons] at hlast
      have ih := ih hrest hlast
      rw [List.cons_append] at ih
      rw [List.cons_append, List.cons_append, cutDouble, if_neg hab, ih]

theorem cutDouble_none {u : List UInt8} (h : ¬ [58, 58] <:+: u) : cutDouble u = none := by
  induction u with
  | nil => rfl
  | cons a u ih =>
    have hrest : ¬ [58, 58] <:+: u := fun hu => h (hu.trans (List.suffix_cons a u).isInfix)
    cases u with
    | nil => rfl
    | cons b u =>
      have hab : ¬ (a = 58 ∧ b = 58) := by
        rintro ⟨rfl, rfl⟩
        exact h (List.prefix_append [58, 58] u).isInfix
      rw [cutDouble, if_neg hab, ih hrest]

theorem infix_append_sep {sep : UInt8} {w v : List UInt8} (hw : sep ∉ w) (hne : v.head? ≠ some sep)
    (h : [sep, sep] <:+: w ++ sep :: v) : [sep, sep] <:+: v := by
  induction w with
  | nil =>
    rcases List.infix_cons_iff.mp h with hp | hi
    · obtain ⟨-, hp⟩ := List.cons_prefix_cons.mp hp
      cases v with
      | nil => exact absurd hp (by simp)
      | cons b v =>
        obtain ⟨rfl, -⟩ := List.cons_prefix_cons.mp hp
        exact absurd rfl hne
    · exact hi
  | cons a w ih =>
    rcases List.infix_cons_iff.mp h with hp | hi
    · obtain ⟨rfl, -⟩ := List.cons_prefix_cons.mp hp
      exact absurd (List.mem_cons_self ..) hw
    · exact ih (fun hmem => hw (List.mem_cons_of_mem _ hmem)) hi

theorem not_infix_intercalate {sep : UInt8} {ws : List (List UInt8)} (hsep : ∀ w ∈ ws, sep ∉ w)
    (hne : ∀ w ∈ ws, w ≠ []) : ¬ [sep, sep] <:+: [sep].intercalate ws ∧ ([sep].intercalate ws).head? ≠ some sep := by
  have hhead {w : List UInt8} (hw : sep ∉ w) (hw' : w ≠ []) (v : List UInt8) : (w ++ v).head? ≠ some sep := by
    rw [List.head?_append_of_ne_nil _ hw']
    exact fun h => hw (List.mem_of_mem_head? h)
  induction ws with
  | nil => exact ⟨by simp, by simp⟩
  | cons w ws ih =>
    obtain ⟨hw, hws⟩ := List.forall_mem_cons.mp hsep
    obtain ⟨hw', hws'⟩ := List.forall_mem_cons.mp hne
    cases ws with
    | nil =>
      rw [List.intercalate_singleton]
      refine ⟨fun h => hw (h.subset (List.mem_cons_self ..)), ?_⟩
      simpa using hhead hw hw' []
    | cons w' ws =>
      obtain ⟨hi, hh⟩ := ih hws hws'
      rw [intercalate_cons w (List.cons_ne_nil w' ws)]
      exact ⟨fun h => hi (infix_append_sep hw hh h), hhead hw hw' _⟩

theorem getLast?_intercalate_ne {sep : UInt8} {ws : List (List UInt8)} (hsep : ∀ w ∈ ws, sep ∉ w)
    (hne : ∀ w ∈ ws, w ≠ []) : ([sep].intercalate ws).getLast? ≠ some sep := by
  induction ws with
  | nil => simp
  | cons w ws ih =>
    obtain ⟨hw, hws⟩ := List.forall_mem_cons.mp hsep
    obtain ⟨-, hws'⟩ := List.forall_mem_cons.mp hne
    cases ws with
    | nil =>
      rw [List.intercalate_singleton]
      exact fun h => hw (List.mem_of_getLast? h)
    | cons w' ws =>
      have hrest : [sep].intercalate (w' :: ws) ≠ [] := intercalate_ne_nil (List.cons_ne_nil w' ws) hws'
      rw [intercalate_cons w (List.cons_ne_nil w' ws), List.getLast?_append_cons,
        List.getLast?_cons_of_ne_nil hrest]
      exact ih hws hws'

theorem cutDouble_writeGroups (segments : List Nat) : cutDouble (writeGroups segments) = none ∧
    ∀ v, cutDouble (writeGroups segments ++ 58 :: 58 :: v) = some (writeGroups segments, v) := by
  have hsep : ∀ w ∈ segments.map (digits 16), (58 : UInt8) ∉ w := by
    intro w hw
    obtain ⟨n, -, rfl⟩ := List.mem_map.mp hw
    exact not_mem_digits (by decide) (by decide) (by decide) n
  have hne : ∀ w ∈ segments.map (digits 16), w ≠ [] := by
    intro w hw
    obtain ⟨n, -, rfl⟩ := List.mem_map.mp hw
    exact digits_ne_nil 16 n
  have hinfix := (not_infix_intercalate hsep hne).1
  exact ⟨cutDouble_none hinfix, cutDouble_append hinfix (getLast?_intercalate_ne hsep hne)⟩

theorem readSegments_writeGroups {segments : List Nat} (hlen : segments.length = 8) (h : ∀ n ∈ segments, n < 65536) :
    readSegments (writeGroups segments) = some segments := by
  unfold readSegments
  rw [(cutDouble_writeGroups segments).1]
  dsimp only
  rw [readGroups_writeGroups h]
  exact if_pos hlen

theorem readSegments_double {front back : List Nat} (hlen : front.length + back.length ≤ 7)
    (hf : ∀ n ∈ front, n < 65536) (hb : ∀ n ∈ back, n < 65536) :
    readSegments (writeGroups front ++ 58 :: 58 :: writeGroups back) =
      some (front ++ List.replicate (8 - front.length - back.length) 0 ++ back) := by
  unfold readSegments
  rw [(cutDouble_writeGroups front).2]
  dsimp only
  rw [readGroups_writeGroups hf, readGroups_writeGroups hb]
  exact if_pos hlen

theorem readSegments_octets {n : Nat} (hn : n < 65536) {octets : List Nat} (hlen : octets.length = 4)
    (h : ∀ n ∈ octets, n < 256) :
    readSegments (58 :: 58 :: (digits 16 n ++ 58 :: writeOctets octets)) =
      some (List.replicate 5 0 ++ n :: octetPairs octets) := by
  unfold readSegments
  rw [cutDouble, if_pos ⟨rfl, rfl⟩]
  dsimp only
  rw [readGroups_octets hn hlen h]
  obtain ⟨a, b, c, d, rfl⟩ := List.length_eq_four.mp hlen
  rfl

theorem readSegments_writeOctets {octets : List Nat} (hlen : octets.length = 4) (h : ∀ n ∈ octets, n < 256) :
    readSegments (writeOctets octets) = none := by
  have hcolon : (58 : UInt8) ∉ writeOctets octets := not_mem_writeOctets (by decide) (by decide) octets
  have hne : writeOctets octets ≠ [] := List.ne_nil_of_mem (dot_mem_writeOctets hlen)
  have hread : readGroups (writeOctets octets) = some (octetPairs octets) := by
    have hlast : [writeOctets octets].getLast? = some (writeOctets octets) := rfl
    have hdrop : [writeOctets octets].dropLast = [] := rfl
    unfold readGroups
    rw [if_neg hne, List.splitOn_eq_singleton hcolon]
    dsimp only
    rw [hlast]
    dsimp only
    rw [if_pos (dot_mem_writeOctets hlen), hdrop, readOctets_writeOctets hlen h]
    rfl
  unfold readSegments
  rw [cutDouble_none fun hi => hcolon (hi.subset (List.mem_cons_self ..)), hread]
  obtain ⟨a, b, c, d, rfl⟩ := List.length_eq_four.mp hlen
  rfl

end XmppProxy.Lib
