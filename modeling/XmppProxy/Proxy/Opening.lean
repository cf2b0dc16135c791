import XmppProxy.Lib.Words
import XmppProxy.Model.Incoming

/-! What `open_incoming` writes to the target: the PROXY line, which is one line, and the header. -/

namespace XmppProxy

open Lib

theorem newline_not_mem_toDigits (base n : Nat) : (10 : UInt8) ∉ (Nat.toDigits base n).map Char.toUInt8 := by
  have hdigit : ∀ d : Nat, (Nat.digitChar d).toUInt8 ≠ 10 := by
    intro d
    have hite : ∀ {q : Prop} [Decidable q] {x y : Char}, x.toUInt8 ≠ 10 → y.toUInt8 ≠ 10 →
        (if q then x else y).toUInt8 ≠ 10 := by
      intro q _ x y hx hy
      split
      · exact hx
      · exact hy
    unfold Nat.digitChar
    iterate 16 apply hite (by decide)
    decide
  have key : ∀ (fuel n : Nat) (cs : List Char), (10 : UInt8) ∉ cs.map Char.toUInt8 →
      (10 : UInt8) ∉ (Nat.toDigitsCore base fuel n cs).map Char.toUInt8 := by
    intro fuel
    induction fuel with
    | zero => exact fun n cs h => h
    | succ fuel ih =>
      intro n cs h
      have hcons : (10 : UInt8) ∉ (Nat.digitChar (n % base) :: cs).map Char.toUInt8 := by
        rw [List.map_cons, List.mem_cons, not_or]
        exact ⟨(hdigit _).symm, h⟩
      rw [Nat.toDigitsCore]
      split_ifs
      · exact hcons
      · exact ih _ _ hcons
  exact key _ _ [] List.not_mem_nil

theorem newline_not_mem_joined {sep : UInt8} (hsep : sep ≠ 10) {ws : List Bytes}
    (h : ∀ w ∈ ws, (10 : UInt8) ∉ w) : (10 : UInt8) ∉ joined sep ws := by
  induction ws with
  | nil => exact List.not_mem_nil
  | cons w ws ih =>
    have hw := h w (List.mem_cons_self ..)
    cases ws with
    | nil => exact hw
    | cons w' ws =>
      rw [joined, List.mem_append, List.mem_cons, not_or, not_or]
      · exact ⟨hw, hsep.symm, ih fun v hv => h v (List.mem_cons_of_mem _ hv)⟩
      · simp

theorem newline_not_mem_displayV4 (octets : List UInt8) : (10 : UInt8) ∉ displayV4 octets := by
  apply newline_not_mem_joined (by decide)
  intro w hw
  obtain ⟨o, -, rfl⟩ := List.mem_map.mp hw
  exact newline_not_mem_toDigits 10 _

theorem newline_not_mem_displaySegments (segments : List UInt16) :
    (10 : UInt8) ∉ displaySegments segments := by
  apply newline_not_mem_joined (by decide)
  intro w hw
  obtain ⟨s, -, rfl⟩ := List.mem_map.mp hw
  exact newline_not_mem_toDigits 16 _

theorem newline_not_mem_display (ip : IpAddr) : (10 : UInt8) ∉ ip.display := by
  cases ip with
  | v4 octets => exact newline_not_mem_displayV4 _
  | v6 segments =>
    unfold IpAddr.display displayV6
    dsimp only
    split
    · rw [List.mem_append, not_or]
      exact ⟨by decide, newline_not_mem_displayV4 _⟩
    · split_ifs
      · simp only [List.mem_append, not_or]
        exact ⟨⟨newline_not_mem_displaySegments _, by decide⟩, newline_not_mem_displaySegments _⟩
      · exact newline_not_mem_displaySegments _

/-- The only line feed of the PROXY line ends it. -/
theorem proxyLine_eq (clientAddr localAddr : SocketAddr) :
    ∃ u, proxyLine clientAddr localAddr = u ++ [10] ∧ (10 : UInt8) ∉ u := by
  refine ⟨bytes "PROXY TCP" ++ [if clientAddr.ip.isIpv4 then 52 else 54] ++
    32 :: clientAddr.ip.display ++ 32 :: localAddr.ip.display ++ 32 :: decimal clientAddr.port.toNat ++
    32 :: decimal localAddr.port.toNat ++ [13], ?_, ?_⟩
  · unfold proxyLine
    rw [List.append_assoc _ [13] [10]]
    rfl
  · have hv : (10 : UInt8) ≠ if clientAddr.ip.isIpv4 then 52 else 54 := by split_ifs <;> decide
    have hproxy : (10 : UInt8) ∉ bytes "PROXY TCP" := by decide
    have hc := newline_not_mem_display clientAddr.ip
    have hl := newline_not_mem_display localAddr.ip
    have hcp : (10 : UInt8) ∉ decimal clientAddr.port.toNat := newline_not_mem_toDigits 10 _
    have hlp : (10 : UInt8) ∉ decimal localAddr.port.toNat := newline_not_mem_toDigits 10 _
    simp only [List.mem_append, List.mem_cons, List.not_mem_nil, or_false, not_or]
    exact ⟨⟨⟨⟨⟨⟨hproxy, hv⟩, by decide, hc⟩, by decide, hl⟩, by decide, hcp⟩, by decide, hlp⟩, by decide⟩

namespace Incoming

variable {Cert Verifier : Type} {env : Incoming Cert Verifier} {f f' : StanzaFilter} {sent : List Sent}

def proxySent (env : Incoming Cert Verifier) : List Sent :=
  if env.config.proxy then [.raw (proxyLine env.clientAddr env.localAddr)] else []

def Scratched (f f' : StanzaFilter) : Prop := f' = f ∨ ∃ w hw, f' = f.scratch w hw

theorem sendProxy_eq (env : Incoming Cert Verifier) (f : StanzaFilter) :
    env.sendProxy f =
      if h : (proxyLine env.clientAddr env.localAddr).length ≤ f.bufSize then
        match env.proxyTaken with
        | none => (.ok (), f.scratch _ h, [.raw (proxyLine env.clientAddr env.localAddr)])
        | some taken =>
          (.err .io, f.scratch _ h, [.raw ((proxyLine env.clientAddr env.localAddr).take taken)])
      else (.err .io, f, []) := by
  unfold sendProxy
  dsimp only
  split_ifs with hlen
  swap
  · rfl
  obtain ⟨u, hu, hfree⟩ := proxyLine_eq env.clientAddr env.localAddr
  have hfirst : firstIndexOf (f.scratch (proxyLine env.clientAddr env.localAddr) hlen).buf [10] =
      .ok u.length := by
    rw [firstIndexOf_eq_ok]
    change Leftmost (_ ++ _) _ _
    rw [hu, List.append_assoc]
    exact leftmost_singleton hfree _
  have htake : (f.scratch (proxyLine env.clientAddr env.localAddr) hlen).buf.take (u.length + 1) =
      proxyLine env.clientAddr env.localAddr := by
    apply List.take_left'
    rw [hu, List.length_append]
    rfl
  rw [hfirst]
  cases env.proxyTaken with
  | none =>
    dsimp only
    rw [htake]
  | some taken =>
    dsimp only
    rw [htake]

theorem sendProxy_ok (h : env.sendProxy f = (.ok (), f', sent)) :
    sent = [.raw (proxyLine env.clientAddr env.localAddr)] ∧ Scratched f f' := by
  rw [sendProxy_eq] at h
  split_ifs at h with hlen
  · split at h
    · obtain ⟨-, h'⟩ := Prod.mk.inj h
      obtain ⟨rfl, rfl⟩ := Prod.mk.inj h'
      exact ⟨rfl, .inr ⟨_, hlen, rfl⟩⟩
    · cases h
  · cases h

theorem transmit_ok {data : Option Sent} {res : WriteResult} (h : transmit data res = (.ok (), sent)) :
    sent = data.toList := by
  cases data with
  | none => cases res <;> cases h <;> rfl
  | some data => cases res <;> cases h; rfl

theorem openIncoming_ok {streamOpen : Bytes} {isC2s : Bool}
    (h : env.openIncoming streamOpen isC2s f = (.ok (), f', sent)) :
    sent = env.proxySent ++ [.raw streamOpen] ∧ Scratched f f' := by
  obtain ⟨⟨r, opened⟩, ht⟩ : ∃ x, transmit (some (.raw streamOpen)) env.openRes = x := ⟨_, rfl⟩
  have hopened : ∀ {g : StanzaFilter} {sent₀ : List Sent}, (r, g, sent₀ ++ opened) = (.ok (), f', sent) →
      f' = g ∧ sent = sent₀ ++ [.raw streamOpen] := by
    intro g sent₀ heq
    cases heq
    exact ⟨rfl, by rw [transmit_ok ht, Option.toList_some]⟩
  unfold openIncoming at h
  unfold proxySent
  split at h
  · cases h
  · split at h
    · by_cases hproxy : env.config.proxy = true
      · rw [if_pos hproxy] at h ⊢
        cases hx : env.sendProxy f with
        | mk r₀ x =>
          obtain ⟨g, sent₀⟩ := x
          rw [hx] at h
          cases r₀ with
          | ok =>
            dsimp only at h
            rw [ht] at h
            obtain ⟨rfl, rfl⟩ := hopened h
            obtain ⟨rfl, hf⟩ := sendProxy_ok hx
            exact ⟨rfl, hf⟩
          | err e => cases h
          | panic => cases h
      · rw [if_neg hproxy] at h ⊢
        dsimp only at h
        rw [ht] at h
        obtain ⟨rfl, rfl⟩ := hopened h
        exact ⟨rfl, .inl rfl⟩
    next hne =>
      obtain ⟨hr, -⟩ := Prod.mk.inj h
      exact absurd hr hne

end Incoming
end XmppProxy
