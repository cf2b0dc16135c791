import XmppProxy.Lib.Sorting
import XmppProxy.Model.Bytes

/-! The check of a server's certificate: pinned keys, POSH fingerprints, then the chain and the names.
The certificates themselves are read by libraries. -/

namespace XmppProxy

inductive Algorithm where
  | sha256
  | sha512
  deriving DecidableEq, Repr

/-- What `webpki`, `ring` and `BASE64` make of certificates and of bytes. -/
structure Pki (Cert ServerName : Type) where
  asRef : Cert → Bytes
  hash : Algorithm → Bytes → Bytes
  base64 : Bytes → Bytes
  /-- The `subject_public_key_info` of `anchor_from_trusted_cert`. -/
  anchorFromTrustedCert : Cert → Option Bytes
  endEntityCert : Cert → Bool
  verifyForUsage : Cert → List Cert → Nat → Bool
  verifyIsValidForSubjectName : Cert → ServerName → Bool

variable {Cert ServerName : Type}

def digest (pki : Pki Cert ServerName) (algorithm : Algorithm) (buf : Bytes) : Bytes :=
  pki.base64 (pki.hash algorithm buf)

structure Fingerprint where
  sha256 : Option Bytes
  sha512 : Option Bytes
  deriving DecidableEq, Repr

structure Posh where
  sha256Fingerprints : List Bytes
  sha512Fingerprints : List Bytes
  expires : UInt64
  deriving DecidableEq, Repr

def combineUniq (target other : List Bytes) : List Bytes :=
  Lib.dedup ((target ++ other).mergeSort fun a b => (compare a b).isLE)

namespace Posh

def new (fingerprints : List Fingerprint) (expires : UInt64) : Outcome Posh :=
  if expires = 0 then .err .poshExpires
  else .ok ⟨fingerprints.filterMap Fingerprint.sha256, fingerprints.filterMap Fingerprint.sha512, expires⟩

def append (posh other : Posh) : Posh where
  sha256Fingerprints := combineUniq posh.sha256Fingerprints other.sha256Fingerprints
  sha512Fingerprints := combineUniq posh.sha512Fingerprints other.sha512Fingerprints
  expires := if posh.expires < other.expires then posh.expires else other.expires

def validCert (posh : Posh) (pki : Pki Cert ServerName) (cert : Bytes) : Bool :=
  (!posh.sha256Fingerprints.isEmpty && posh.sha256Fingerprints.contains (digest pki .sha256 cert)) ||
    (!posh.sha512Fingerprints.isEmpty && posh.sha512Fingerprints.contains (digest pki .sha512 cert))

end Posh

structure XmppServerCertVerifier (ServerName : Type) where
  names : List ServerName
  posh : Option Posh
  sha256Pinnedpubkeys : List Bytes

def verifyIsValidTlsServerCert (pki : Pki Cert ServerName) (endEntity : Cert)
    (intermediates : List Cert) (now : Nat) : Outcome Unit :=
  if pki.endEntityCert endEntity && pki.verifyForUsage endEntity intermediates now then .ok ()
  else .err .pki

namespace XmppServerCertVerifier

/-- The pinned keys are compared with the key behind four fixed bytes. -/
def pinned (v : XmppServerCertVerifier ServerName) (pki : Pki Cert ServerName) (endEntity : Cert) :
    Outcome Bool :=
  if v.sha256Pinnedpubkeys.isEmpty then .ok false
  else
    match pki.anchorFromTrustedCert endEntity with
    | none => .err .pki
    | some subjectPublicKeyInfo =>
      let pubkey := [48, 130, 1, 34] ++ subjectPublicKeyInfo
      .ok (v.sha256Pinnedpubkeys.contains (digest pki .sha256 pubkey))

def verifyCert (v : XmppServerCertVerifier ServerName) (pki : Pki Cert ServerName) (endEntity : Cert)
    (intermediates : List Cert) (now : Nat) : Outcome Unit := do
  if ← v.pinned pki endEntity then .ok ()
  else if v.posh.any fun posh => posh.validCert pki (pki.asRef endEntity) then .ok ()
  else
    verifyIsValidTlsServerCert pki endEntity intermediates now
    if v.names.any (pki.verifyIsValidForSubjectName endEntity) then .ok () else .err .validationFailed

end XmppServerCertVerifier
end XmppProxy
