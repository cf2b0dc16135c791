import XmppProxy.Lib.Der
import XmppProxy.Model.Verify

/-! Which keys a pin can name. A pin is the digest of an encoded SubjectPublicKeyInfo; the check encodes
every key as if it had the length of one kind of key. -/

namespace XmppProxy

open Lib

variable {Cert ServerName : Type} {pki : Pki Cert ServerName} {cert : Cert} {content : Bytes}

/-- The tag of a SEQUENCE. -/
abbrev sequenceTag : UInt8 := 48

def pinOf (pki : Pki Cert ServerName) (content : Bytes) : Bytes :=
  digest pki .sha256 (Der.encode sequenceTag content)

/-- A certificate with a pinned key is accepted for it, and no other is. -/
structure PinsWork (pki : Pki Cert ServerName) (cert : Cert) (content : Bytes) : Prop where
  accepts : ∀ (v : XmppServerCertVerifier ServerName) (intermediates : List Cert) (now : Nat),
    pinOf pki content ∈ v.sha256Pinnedpubkeys →
      v.pinned pki cert = .ok true ∧ v.verifyCert pki cert intermediates now = .ok ()
  only : ∀ v : XmppServerCertVerifier ServerName,
    v.pinned pki cert = .ok true → pinOf pki content ∈ v.sha256Pinnedpubkeys

theorem fixed_header : [48, 130, 1, 34] = sequenceTag :: Der.lengthOctets 290 := by decide

theorem pinned_iff {v : XmppServerCertVerifier ServerName}
    (hcert : pki.anchorFromTrustedCert cert = some content) :
    v.pinned pki cert = .ok true ↔
      digest pki .sha256 (sequenceTag :: Der.lengthOctets 290 ++ content) ∈ v.sha256Pinnedpubkeys := by
  unfold XmppServerCertVerifier.pinned
  rw [hcert, ← fixed_header]
  split_ifs with hempty
  · rw [List.isEmpty_iff.mp hempty]
    simp
  · simp

theorem verifyCert_of_pinned {v : XmppServerCertVerifier ServerName} (intermediates : List Cert) (now : Nat)
    (h : v.pinned pki cert = .ok true) : v.verifyCert pki cert intermediates now = .ok () := by
  unfold XmppServerCertVerifier.verifyCert
  rw [h]
  rfl

theorem pinsWork_of_length (hcert : pki.anchorFromTrustedCert cert = some content)
    (hlen : content.length = 290) : PinsWork pki cert content := by
  have hpin : pinOf pki content = digest pki .sha256 (sequenceTag :: Der.lengthOctets 290 ++ content) := by
    unfold pinOf
    rw [Der.header_eq_encode_iff.mpr hlen]
  constructor
  · intro v intermediates now hmem
    have hpinned := (pinned_iff hcert).mpr (hpin ▸ hmem)
    exact ⟨hpinned, verifyCert_of_pinned intermediates now hpinned⟩
  · intro v hpinned
    rw [hpin]
    exact (pinned_iff hcert).mp hpinned

theorem pinsWork_length (hbase64 : Function.Injective pki.base64)
    (hcert : pki.anchorFromTrustedCert cert = some content)
    (hcollision : pki.hash .sha256 (sequenceTag :: Der.lengthOctets 290 ++ content) =
        pki.hash .sha256 (Der.encode sequenceTag content) →
      sequenceTag :: Der.lengthOctets 290 ++ content = Der.encode sequenceTag content)
    (h : PinsWork pki cert content) : content.length = 290 := by
  have hmem := (pinned_iff hcert).mp
    (h.accepts { names := [], posh := none, sha256Pinnedpubkeys := [pinOf pki content] } [] 0
      (List.mem_singleton_self _)).1
  exact Der.header_eq_encode_iff.mp (hcollision (hbase64 (List.mem_singleton.mp hmem)))

/-- Pins work for the keys of which the encoded contents have 290 bytes, as those of RSA keys with 2048
bits do, and for no others. -/
theorem pins_work_iff (pki : Pki Cert ServerName) (hbase64 : Function.Injective pki.base64) (cert : Cert)
    (content : Bytes) (hcert : pki.anchorFromTrustedCert cert = some content)
    (hcollision : pki.hash .sha256 (sequenceTag :: Der.lengthOctets 290 ++ content) =
        pki.hash .sha256 (Der.encode sequenceTag content) →
      sequenceTag :: Der.lengthOctets 290 ++ content = Der.encode sequenceTag content) :
    PinsWork pki cert content ↔ content.length = 290 :=
  ⟨pinsWork_length hbase64 hcert hcollision, pinsWork_of_length hcert⟩

def plainPki : Pki Bytes Unit where
  asRef := id
  hash _ := id
  base64 := id
  anchorFromTrustedCert := some
  endEntityCert _ := true
  verifyForUsage _ _ _ := false
  verifyIsValidForSubjectName _ _ := false

/-- The contents of a key on the curve P-256: the identifiers, and a point that the last 64 bytes give. -/
def p256Key : Bytes :=
  [48, 19, 6, 7, 42, 134, 72, 206, 61, 2, 1, 6, 8, 42, 134, 72, 206, 61, 3, 1, 7, 3, 66, 0, 4] ++
    List.replicate 64 1

theorem pins_work_p256 : PinsWork plainPki p256Key p256Key ↔ p256Key.length = 290 :=
  pins_work_iff plainPki Function.injective_id p256Key p256Key rfl id

/-- Its pin is not accepted. -/
theorem pins_fail_p256 :
    ¬ ∀ (pki : Pki Bytes Unit) (cert content : Bytes), Function.Injective pki.base64 →
      Function.Injective (pki.hash .sha256) → pki.anchorFromTrustedCert cert = some content →
        PinsWork pki cert content := by
  intro h
  have hwork := h plainPki p256Key p256Key Function.injective_id Function.injective_id rfl
  have hlen := pinsWork_length Function.injective_id rfl id hwork
  revert hlen
  decide

end XmppProxy
