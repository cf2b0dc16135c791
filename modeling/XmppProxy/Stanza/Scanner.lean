import XmppProxy.Model.StanzaFilter

/-! The splitter without its buffer: the state keeps the bytes of the stanza read so far instead of a
position in a buffer with stale contents, and tells an opening tag from a closing one. -/

namespace XmppProxy.Stanza

inductive Mode where
  | outside
  | stanzaFirst
  | tagFirst (closing : Bool)
  | tag (closing : Bool)
  | quoted (closing : Bool) (quote : UInt8)
  | between
  | exclamation (idx : Nat)
  | cdata
  | question (idx : Nat)
  | xmlTag
  | endStream
  deriving DecidableEq, Repr

def Mode.state : Mode → StanzaState
  | outside => .outsideStanza
  | stanzaFirst => .stanzaFirstChar
  | tagFirst _ => .insideTagFirstChar
  | tag _ => .insideTag
  | quoted _ q => .insideAttribute q
  | between => .betweenTags
  | exclamation idx => .exclamationTag idx
  | cdata => .insideCDATA
  | question idx => .questionTag idx
  | xmlTag => .insideXmlTag
  | endStream => .endStream

def FilterError : Error → Prop
  | .illegalStanza _ | .invalidStanza | .stanzaTooBig _ | .expectedBytes _ _ => True
  | _ => False

instance : DecidablePred FilterError := fun e => by
  cases e <;> unfold FilterError <;> infer_instance

structure Scanner where
  part : Bytes
  depth : Nat
  eoft : Nat
  mode : Mode

namespace Scanner

def idle (eoft : Nat) : Scanner := ⟨[], 0, eoft, .outside⟩

inductive Move where
  | fall (s : Scanner)
  | ret (r : Outcome (Option Bytes)) (s : Scanner)

def illegal (s : Scanner) (b : UInt8) : Move := .ret (.err (.illegalStanza (s.part ++ [b]))) s

def emit (s : Scanner) (b : UInt8) : Move := .ret (.ok (some (s.part ++ [b]))) (idle s.eoft)

def subDepth (s : Scanner) (n : Nat) (k : Scanner → Move) : Move :=
  match checkedSub s.depth n with
  | .ok d => k { s with depth := d }
  | .error e => .ret (.err e) s

def ifLastEquals (s : Scanner) (b : UInt8) (needle : Bytes) (yes no : Move) : Move :=
  if needle.length - 1 ≤ s.part.length then if needle <:+ s.part ++ [b] then yes else no
  else .ret (.err (.expectedBytes (needle.length - 1) (s.part.length + 1))) s

def markFirstTag (s : Scanner) : Scanner :=
  if s.eoft = 0 then { s with eoft := s.part.length } else s

def afterTag (s : Scanner) (b : UInt8) : Move :=
  if s.depth = 0 then s.emit b
  else if s.depth = 1 ∧ bytes "<stream:stream " <+: s.part ++ [b] then s.emit b
  else .fall { s with mode := .between }

def tagClosed (s : Scanner) (b : UInt8) : Move :=
  match s.part.getLast? with
  | none => .ret .panic s.markFirstTag
  | some c =>
    if c = slash then s.markFirstTag.subDepth 1 (afterTag · b) else s.markFirstTag.afterTag b

def dispatch (s : Scanner) (b : UInt8) : Move :=
  match s.mode with
  | .outside =>
    if b = lt then .fall { s with depth := s.depth + 1, mode := .stanzaFirst }
    else .ret (.ok none) s
  | .between =>
    if b = lt then .fall { s with depth := s.depth + 1, mode := .tagFirst false } else .fall s
  | .stanzaFirst =>
    if b = slash then .fall { s with mode := .endStream }
    else if b = bang ∨ b = gt ∨ b = apos ∨ b = quot then s.illegal b
    else if b = quest then .fall { s with mode := .question (s.part.length + 4) }
    else .fall { s with mode := .tag false }
  | .tagFirst closing =>
    if b = slash then s.subDepth 2 fun s => .fall { s with mode := .tagFirst true }
    else if b = bang then .fall { s with mode := .exclamation (s.part.length + 7) }
    else if b = quest ∨ b = gt ∨ b = apos ∨ b = quot then s.illegal b
    else .fall { s with mode := .tag closing }
  | .tag closing =>
    if b = gt then s.tagClosed b
    else if b = apos ∨ b = quot then .fall { s with mode := .quoted closing b }
    else .fall s
  | .quoted closing quote => if b = quote then .fall { s with mode := .tag closing } else .fall s
  | .question idx =>
    if idx = s.part.length then
      s.ifLastEquals b (bytes "xml ") (.fall { s with mode := .xmlTag }) (s.illegal b)
    else .fall s
  | .xmlTag => if b = gt then s.emit b else .fall s
  | .exclamation idx =>
    if idx = s.part.length then
      s.ifLastEquals b (bytes "[CDATA[") (({ s with mode := .cdata }).subDepth 1 .fall) (s.illegal b)
    else .fall s
  | .cdata =>
    if b = gt then s.ifLastEquals b (bytes "]]>") (.fall { s with mode := .between }) (.fall s)
    else .fall s
  | .endStream =>
    if b = gt then s.ifLastEquals b (bytes "</stream:stream>") (s.markFirstTag.emit b) (s.illegal b)
    else .fall s

def push (s : Scanner) (b : UInt8) : Scanner := { s with part := s.part ++ [b] }

def advance (limit : Nat) (s : Scanner) (b : UInt8) : Outcome (Option Bytes) × Scanner :=
  if (s.push b).part.length = limit then (.err (.stanzaTooBig (s.push b).part), s.push b)
  else (.ok none, s.push b)

def next (limit : Nat) (s : Scanner) (b : UInt8) : Outcome (Option Bytes) × Scanner :=
  if s.part.length < limit then
    match s.dispatch b with
    | .ret r s' => (r, s')
    | .fall s' => s'.advance limit b
  else (.panic, s)

/-- What the mark of the first tag may become: it stays, or is set here. -/
def Marked (s : Scanner) (e : Nat) : Prop := e = s.eoft ∨ e = s.part.length

/-- The ways out of the `match`, seen from the scanner `s` that read `b`. -/
def Move.Local (s : Scanner) (b : UInt8) : Move → Prop
  | .fall t => t.part = s.part ∧ t.mode ≠ .outside ∧ s.Marked t.eoft
  | .ret (.ok (some u)) t => b = gt ∧ u = s.part ++ [b] ∧ ∃ e, t = idle e ∧ s.Marked e
  | .ret (.ok none) t => t = s ∧ s.mode = .outside ∧ b ≠ lt
  | .ret (.err err) t => t.part = s.part ∧ FilterError err
  | .ret .panic t => t.part = s.part ∧ s.part = [] ∧ s.mode ≠ .outside

section

variable {s : Scanner} {b : UInt8}

@[simp] theorem markFirstTag_part (s : Scanner) : s.markFirstTag.part = s.part := by
  unfold markFirstTag
  split <;> rfl

@[simp] theorem markFirstTag_depth (s : Scanner) : s.markFirstTag.depth = s.depth := by
  unfold markFirstTag
  split <;> rfl

@[simp] theorem markFirstTag_mode (s : Scanner) : s.markFirstTag.mode = s.mode := by
  unfold markFirstTag
  split <;> rfl

theorem marked_markFirstTag (s : Scanner) : s.Marked s.markFirstTag.eoft := by
  unfold markFirstTag
  split
  · exact .inr rfl
  · exact .inl rfl

theorem checkedSub_error {i n : Nat} {e : Error} (h : checkedSub i n = .error e) : FilterError e := by
  unfold checkedSub at h
  split_ifs at h
  cases h
  trivial

theorem local_emit (t : Scanner) (ht : t.part = s.part) (hm : s.Marked t.eoft) (hb : b = gt) :
    (t.emit b).Local s b :=
  ⟨hb, by rw [ht], _, rfl, hm⟩

theorem local_illegal (s : Scanner) (b : UInt8) : (s.illegal b).Local s b := ⟨rfl, trivial⟩

theorem local_subDepth {t : Scanner} (ht : t.part = s.part) {n : Nat} {k : Scanner → Move}
    (hk : ∀ d, (k { t with depth := d }).Local s b) : (t.subDepth n k).Local s b := by
  unfold subDepth
  split
  · exact hk _
  next he => exact ⟨ht, checkedSub_error he⟩

theorem local_ifLastEquals {needle : Bytes} {yes no : Move} (hyes : yes.Local s b)
    (hno : no.Local s b) : (s.ifLastEquals b needle yes no).Local s b := by
  unfold ifLastEquals
  split_ifs
  · exact hyes
  · exact hno
  · exact ⟨rfl, trivial⟩

theorem local_afterTag {t : Scanner} (ht : t.part = s.part) (hm : s.Marked t.eoft) (hb : b = gt) :
    (t.afterTag b).Local s b := by
  unfold afterTag
  split_ifs
  · exact local_emit t ht hm hb
  · exact local_emit t ht hm hb
  · exact ⟨ht, by simp, hm⟩

theorem local_tagClosed (hs : s.mode ≠ .outside) (hb : b = gt) : (s.tagClosed b).Local s b := by
  have hpart := markFirstTag_part s
  have hmark := marked_markFirstTag s
  unfold tagClosed
  split
  next hnone => exact ⟨hpart, List.getLast?_eq_none_iff.mp hnone, hs⟩
  next =>
    split_ifs
    · exact local_subDepth hpart fun d => local_afterTag hpart hmark hb
    · exact local_afterTag hpart hmark hb

theorem local_fall {m : Mode} {d : Nat} (hm : m ≠ .outside) :
    (Move.fall { s with depth := d, mode := m }).Local s b := ⟨rfl, hm, .inl rfl⟩

theorem local_stay (hs : s.mode ≠ .outside) : (Move.fall s).Local s b := ⟨rfl, hs, .inl rfl⟩

theorem local_dispatch (s : Scanner) (b : UInt8) : (s.dispatch b).Local s b := by
  unfold dispatch
  cases hm : s.mode <;> dsimp only
  case outside =>
    split_ifs with hb
    · exact local_fall (by simp)
    · exact ⟨rfl, hm, hb⟩
  case between =>
    split_ifs
    · exact local_fall (by simp)
    · exact local_stay (by simp [hm])
  case stanzaFirst =>
    split_ifs
    · exact local_fall (by simp)
    · exact local_illegal s b
    · exact local_fall (by simp)
    · exact local_fall (by simp)
  case tagFirst =>
    split_ifs
    · exact local_subDepth rfl fun d => local_fall (by simp)
    · exact local_fall (by simp)
    · exact local_illegal s b
    · exact local_fall (by simp)
  case tag =>
    split_ifs with hb
    · exact local_tagClosed (by simp [hm]) hb
    · exact local_fall (by simp)
    · exact local_stay (by simp [hm])
  case quoted =>
    split_ifs
    · exact local_fall (by simp)
    · exact local_stay (by simp [hm])
  case question =>
    split_ifs
    · exact local_ifLastEquals (local_fall (by simp)) (local_illegal s b)
    · exact local_stay (by simp [hm])
  case xmlTag =>
    split_ifs with hb
    · exact local_emit s rfl (.inl rfl) hb
    · exact local_stay (by simp [hm])
  case exclamation =>
    split_ifs
    · refine local_ifLastEquals ?_ (local_illegal s b)
      exact local_subDepth (s := s) (t := { s with mode := .cdata }) rfl fun d => local_fall (by simp)
    · exact local_stay (by simp [hm])
  case cdata =>
    split_ifs
    · exact local_ifLastEquals (local_fall (by simp)) (local_stay (by simp [hm]))
    · exact local_stay (by simp [hm])
  case endStream =>
    split_ifs with hb
    · refine local_ifLastEquals ?_ (local_illegal s b)
      exact local_emit _ (markFirstTag_part s) (marked_markFirstTag s) hb
    · exact local_stay (by simp [hm])

theorem dispatch_part {t : Scanner} (h : s.dispatch b = .fall t) : t.part = s.part := by
  have hl := local_dispatch s b
  rw [h] at hl
  exact hl.1

end

/-- What one turn does: `r` is answered and the scanner `s` becomes `t`. -/
inductive Turn (limit : Nat) (s : Scanner) (b : UInt8) : Outcome (Option Bytes) → Scanner → Prop where
  | skip : s.mode = .outside → b ≠ lt → Turn limit s b (.ok none) s
  | push {t : Scanner} : s.dispatch b = .fall t → (t.push b).part.length < limit →
      Turn limit s b (.ok none) (t.push b)
  | emit (e : Nat) : b = gt → s.dispatch b = .ret (.ok (some (s.part ++ [b]))) (idle e) →
      s.part.length < limit → s.Marked e →
      Turn limit s b (.ok (some (s.part ++ [b]))) (idle e)
  | full {t : Scanner} : s.dispatch b = .fall t → (t.push b).part.length = limit →
      Turn limit s b (.err (.stanzaTooBig (t.push b).part)) (t.push b)
  | reject {t : Scanner} (err : Error) : s.dispatch b = .ret (.err err) t → t.part = s.part →
      FilterError err →
      Turn limit s b (.err err) t
  | panic {t : Scanner} : s.part = [] → s.mode ≠ .outside → Turn limit s b .panic t
  | past : limit ≤ s.part.length → Turn limit s b .panic s

theorem turn_next (limit : Nat) (s : Scanner) (b : UInt8) :
    Turn limit s b (s.next limit b).1 (s.next limit b).2 := by
  have hl := local_dispatch s b
  unfold next
  by_cases hlt : s.part.length < limit
  swap
  · rw [if_neg hlt]
    exact .past (Nat.le_of_not_lt hlt)
  rw [if_pos hlt]
  cases hd : s.dispatch b with
  | fall t =>
    rw [hd] at hl
    have hlen : (t.push b).part.length = s.part.length + 1 := by
      rw [← hl.1]
      exact List.length_append
    dsimp only [advance]
    by_cases hfull : (t.push b).part.length = limit
    · rw [if_pos hfull]
      exact .full hd hfull
    · rw [if_neg hfull]
      exact .push hd (by omega)
  | ret r t =>
    rw [hd] at hl
    obtain ⟨u⟩ | e | _ := r
    · cases u with
      | none =>
        obtain ⟨rfl, hm, hb⟩ := hl
        exact .skip hm hb
      | some u =>
        obtain ⟨hb, rfl, e, rfl, hmark⟩ := hl
        exact .emit e hb hd hlt hmark
    · exact .reject e hd hl.1 hl.2
    · exact .panic hl.2.1 hl.2.2

end Scanner

def scanNext (limit : Nat) : Lib.Machine Scanner UInt8 (Outcome (Option Bytes)) :=
  ⟨Scanner.next limit⟩

end XmppProxy.Stanza
