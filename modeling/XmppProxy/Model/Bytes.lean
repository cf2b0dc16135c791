import Mathlib.Data.List.Basic

/-! Byte strings, the outcome of a call (a value, an `anyhow` error or a panic) and the errors of the
modelled functions. An error keeps the raw bytes that its message shows through `to_str`. -/

namespace XmppProxy

abbrev Bytes := List UInt8

/-- The bytes of an ASCII literal. -/
def bytes (s : String) : Bytes := s.toList.map Char.toUInt8

/-- Symbol by symbol of the word, and not byte by byte of the type. -/
instance (priority := high) decidableForallMem {α : Type} {P : α → Prop} [DecidablePred P] (w : List α) :
    Decidable (∀ a, a ∈ w → P a) := List.decidableBAll P w

abbrev lt : UInt8 := 60
abbrev gt : UInt8 := 62
abbrev slash : UInt8 := 47
abbrev bang : UInt8 := 33
abbrev quest : UInt8 := 63
abbrev apos : UInt8 := 39
abbrev quot : UInt8 := 34

inductive Error where
  /-- "illegal stanza: {}" -/
  | illegalStanza (text : Bytes)
  /-- "invalid stanza" -/
  | invalidStanza
  /-- "stanza too big: {}" -/
  | stanzaTooBig (text : Bytes)
  /-- "expected {} bytes only have {} bytes" -/
  | expectedBytes (num len : Nat)
  /-- "not found" -/
  | notFound
  /-- The `Utf8Error` of `str::from_utf8` and `String::from_utf8`. -/
  | utf8
  /-- The `io::Error` of a read, a write, a flush or a connection attempt. -/
  | io
  /-- "websocket close: {:?}" -/
  | webSocketClose
  /-- "invalid websocket message: {}" -/
  | invalidWebSocketMessage
  /-- "websocket stream ended" -/
  | webSocketEnded
  /-- "programming error! should always send matching write pair into read, so websocket for
  websocket..." -/
  | programming
  /-- "bad pre-<stream:stream> stanza: {}" -/
  | badPreStream (text : Bytes)
  /-- "stream ended before open" -/
  | endedBeforeOpen
  /-- "not enough bytes", or "less than {} bytes in 10 seconds, closed connection?" -/
  | notEnoughBytes
  /-- "bad pre-tls stanza: {}" -/
  | badPreTls (text : Bytes)
  /-- "incoming connection but `{}_target` not defined" -/
  | noTarget (isC2s : Bool)
  /-- "no client cert auth for s2s incoming from {}" -/
  | noClientCert (domain : Bytes)
  /-- The `InvalidDnsNameError` of `ServerName::try_from`. -/
  | invalidDnsName
  /-- The `ProtoError` of `into_name`. -/
  | proto
  /-- The `NetError` of a lookup. -/
  | net
  /-- The `reqwest::Error` of a request, of its body or of the JSON in it. -/
  | request
  /-- "failed with status code {} for url {}" -/
  | statusCode (status : UInt16) (url : Bytes)
  /-- "host-meta XML unsupported for S2s" -/
  | hostMetaXmlS2s
  /-- "posh illegal url redirect to another url" -/
  | poshRedirect
  /-- "posh expires is 0, ignoring" -/
  | poshExpires
  /-- The `webpki::Error` that `pki_error` converts. -/
  | pki
  /-- "invalid peer certificate: all validation attempts failed: {:?}" -/
  | validationFailed
  /-- "stream ended before proceed" -/
  | endedBeforeProceed
  /-- "cannot connect to any IPs for SRV: {}" -/
  | cannotConnect (target : Bytes)
  /-- "all connection attempts failed" -/
  | allFailed
  deriving DecidableEq, Repr

inductive Outcome (α : Type) where
  | ok (a : α)
  | err (e : Error)
  | panic
  deriving DecidableEq, Repr

namespace Outcome

variable {α β : Type}

/-- Rust's `?`. -/
def bind : Outcome α → (α → Outcome β) → Outcome β
  | ok a, f => f a
  | err e, _ => err e
  | panic, _ => panic

def isOk : Outcome α → Bool
  | ok _ => true
  | _ => false

theorem isOk_iff {x : Outcome α} : x.isOk ↔ ∃ a, x = ok a := by
  cases x <;> simp [isOk]

instance : Monad Outcome where
  pure := ok
  bind := bind

@[simp] theorem pure_eq (a : α) : (pure a : Outcome α) = ok a := rfl

@[simp] theorem ok_bind (a : α) (f : α → Outcome β) : (ok a >>= f) = f a := rfl

@[simp] theorem err_bind (e : Error) (f : α → Outcome β) : (err e >>= f) = err e := rfl

@[simp] theorem panic_bind (f : α → Outcome β) : ((panic : Outcome α) >>= f) = panic := rfl

theorem bind_eq_ok {x : Outcome α} {f : α → Outcome β} {b : β} :
    (x >>= f) = ok b ↔ ∃ a, x = ok a ∧ f a = ok b := by
  cases x with
  | ok a => simp
  | err e => simp
  | panic => simp

theorem bind_ne_panic {x : Outcome α} {f : α → Outcome β} (hx : x ≠ panic) (hf : ∀ a, f a ≠ panic) :
    (x >>= f) ≠ panic := by
  cases x with
  | ok a => exact hf a
  | err e => simp
  | panic => exact absurd rfl hx

theorem exists_err_iff {x : Outcome α} (hx : x ≠ panic) : (∃ e, x = err e) ↔ ¬ ∃ a, x = ok a := by
  cases x with
  | ok a => simp
  | err e => simp
  | panic => exact absurd rfl hx

end Outcome
end XmppProxy
