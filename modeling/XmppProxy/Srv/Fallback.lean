import XmppProxy.Model.Outgoing
import XmppProxy.Proxy.HeaderSend
import XmppProxy.Srv.Provenance

/-! Which candidate `srv_connect` ends with: what becomes of each of them in its three stages, all of them
tried one after the other, against the loop that stops at the first header that cannot be sent. -/

namespace XmppProxy

open Lib

/-- What becomes of a candidate: the stage that fails, or the answer to the header. -/
inductive Fate where
  | notConnected (e : Error)
  | notSent (e : Error)
  | notAnswered (e : Error)
  | answered (conn : Connected) (serverResponse : Bytes)
  | pending
  | panicked

namespace Fate

def decided : Fate → Bool
  | pending => false
  | panicked => false
  | _ => true

def response : Fate → Option (Connected × Bytes)
  | answered conn serverResponse => some (conn, serverResponse)
  | _ => none

end Fate

variable {Uri ServerName : Type}

namespace Outgoing

variable (env : Outgoing ServerName) (domain : Bytes) (isC2s : Bool) (streamOpen : Bytes)

def fate (srv : XmppConnection Uri) (st : Dialing) : Fate × Dialing :=
  match env.connect srv domain streamOpen st with
  | (none, st) => (.pending, st)
  | (some .panic, st) => (.panicked, st)
  | (some (.err e), st) => (.notConnected e, st)
  | (some (.ok conn), st) =>
    match conn.wr.send env.trace isC2s streamOpen streamOpen.length conn.answer.header with
    | (.err e, _) => (.notSent e, st)
    | (.panic, _) => (.panicked, st)
    | (.ok (), _) =>
      match readPreamble conn st with
      | (none, st) => (.pending, st)
      | (some .panic, st) => (.panicked, st)
      | (some (.err e), st) => (.notAnswered e, st)
      | (some (.ok serverResponse), st) => (.answered conn serverResponse, st)

/-- The fates of all candidates, each of them tried in what the ones before have left. -/
def fates : List (XmppConnection Uri) → Dialing → List (XmppConnection Uri × Fate)
  | [], _ => []
  | srv :: srvs, st =>
    let tried := env.fate domain isC2s streamOpen srv st
    (srv, tried.1) :: fates srvs tried.2

theorem tryCandidates_cons (srv : XmppConnection Uri) (srvs : List (XmppConnection Uri)) (st : Dialing) :
    env.tryCandidates domain isC2s streamOpen (srv :: srvs) st =
      match env.fate domain isC2s streamOpen srv st with
      | (.notConnected _, st) => env.tryCandidates domain isC2s streamOpen srvs st
      | (.notAnswered _, st) => env.tryCandidates domain isC2s streamOpen srvs st
      | (.notSent e, st) => (some (.err e), st)
      | (.answered conn serverResponse, st) => (some (.ok (srv, conn, serverResponse)), st)
      | (.pending, st) => (none, st)
      | (.panicked, st) => (some .panic, st) := by
  rw [tryCandidates, fate]
  rcases env.connect srv domain streamOpen st with ⟨_ | conn | e | _, st'⟩
  · rfl
  · dsimp only
    rcases conn.wr.send env.trace isC2s streamOpen streamOpen.length conn.answer.header with ⟨_ | e | _, sent⟩
    · dsimp only
      rcases readPreamble conn st' with ⟨_ | r | e | _, st''⟩ <;> rfl
    · rfl
    · rfl
  · rfl
  · rfl

end Outgoing

def firstAnswered (fates : List (XmppConnection Uri × Fate)) : Option (XmppConnection Uri × Connected × Bytes) :=
  fates.findSome? fun f => f.2.response.map (f.1, ·)

/-- The first candidate in the list that passes all stages is the result, and it is an error only if there is
none. -/
def Exhaustive (fates : List (XmppConnection Uri × Fate))
    (r : Option (Outcome (XmppConnection Uri × Connected × Bytes))) : Prop :=
  match firstAnswered fates with
  | some found => r = some (.ok found)
  | none => ∃ e, r = some (.err e)

/-- Where a candidate does not take the header, one in front of it has answered or none behind it would. -/
def SentOrOver (fates : List (XmppConnection Uri × Fate)) : Prop :=
  ∀ pre srv e post, fates = pre ++ (srv, .notSent e) :: post → firstAnswered pre = none →
    firstAnswered post = none

section

variable {srv : XmppConnection Uri} {fate : Fate} {fates : List (XmppConnection Uri × Fate)}

theorem firstAnswered_cons_none (h : fate.response = none) :
    firstAnswered ((srv, fate) :: fates) = firstAnswered fates := by
  unfold firstAnswered
  rw [List.findSome?_cons, h]
  rfl

theorem exhaustive_cons (h : fate.response = none)
    {r : Option (Outcome (XmppConnection Uri × Connected × Bytes))} :
    Exhaustive ((srv, fate) :: fates) r ↔ Exhaustive fates r := by
  unfold Exhaustive
  rw [firstAnswered_cons_none h]

theorem firstAnswered_append_none (pre : List (XmppConnection Uri × Fate)) {post : List (XmppConnection Uri × Fate)}
    (h : firstAnswered (pre ++ post) = none) : firstAnswered post = none := by
  unfold firstAnswered at h ⊢
  rw [List.findSome?_append, Option.or_eq_none_iff] at h
  exact h.2

theorem sentOrOver_cons (h : fate.response = none) (hsent : ∀ e, fate ≠ .notSent e) :
    SentOrOver ((srv, fate) :: fates) ↔ SentOrOver fates := by
  constructor
  · intro hover pre srv' e post heq hpre
    refine hover ((srv, fate) :: pre) srv' e post (by rw [heq]; rfl) ?_
    rw [firstAnswered_cons_none h, hpre]
  · intro hover pre srv' e post heq hpre
    cases pre with
    | nil => exact absurd (Prod.mk.inj (List.cons.inj heq).1).2 (hsent e)
    | cons f pre =>
      obtain ⟨rfl, hrest⟩ := List.cons.inj heq
      rw [firstAnswered_cons_none h] at hpre
      exact hover pre srv' e post hrest hpre

theorem sentOrOver_notSent {e : Error} :
    SentOrOver ((srv, .notSent e) :: fates) ↔ firstAnswered fates = none := by
  constructor
  · exact fun hover => hover [] srv e fates rfl rfl
  · intro hnone pre srv' e' post heq hpre
    cases pre with
    | nil => exact (List.cons.inj heq).2 ▸ hnone
    | cons f pre =>
      rw [(List.cons.inj heq).2] at hnone
      exact firstAnswered_append_none [(srv', .notSent e')] (firstAnswered_append_none pre hnone)

theorem sentOrOver_answered {conn : Connected} {serverResponse : Bytes} :
    SentOrOver ((srv, .answered conn serverResponse) :: fates) := by
  intro pre srv' e post heq hpre
  cases pre with
  | nil => cases (Prod.mk.inj (List.cons.inj heq).1).2
  | cons f pre =>
    obtain ⟨rfl, -⟩ := List.cons.inj heq
    cases hpre

end

theorem tryCandidates_exhaustive (env : Outgoing ServerName) (domain : Bytes) (isC2s : Bool)
    (streamOpen : Bytes) (srvs : List (XmppConnection Uri)) (st : Dialing)
    (hdecided : ∀ f ∈ env.fates domain isC2s streamOpen srvs st, f.2.decided = true) :
    Exhaustive (env.fates domain isC2s streamOpen srvs st)
        (env.tryCandidates domain isC2s streamOpen srvs st).1 ↔
      SentOrOver (env.fates domain isC2s streamOpen srvs st) := by
  induction srvs generalizing st with
  | nil =>
    refine iff_of_true ⟨.allFailed, rfl⟩ fun pre srv e post heq => ?_
    exact absurd heq.symm (List.append_ne_nil_of_right_ne_nil pre (List.cons_ne_nil _ _))
  | cons srv srvs ih =>
    rw [Outgoing.tryCandidates_cons]
    rw [Outgoing.fates] at hdecided ⊢
    generalize env.fate domain isC2s streamOpen srv st = tried at hdecided ⊢
    obtain ⟨fate, st'⟩ := tried
    have hhead : fate.decided = true := hdecided _ (List.mem_cons_self ..)
    have hrest := ih st' fun f hf => hdecided f (List.mem_cons_of_mem _ hf)
    cases fate with
    | notConnected e =>
      have hsent : ∀ e', Fate.notConnected e ≠ .notSent e' := fun e' h => by cases h
      exact (exhaustive_cons rfl).trans (hrest.trans (sentOrOver_cons rfl hsent).symm)
    | notAnswered e =>
      have hsent : ∀ e', Fate.notAnswered e ≠ .notSent e' := fun e' h => by cases h
      exact (exhaustive_cons rfl).trans (hrest.trans (sentOrOver_cons rfl hsent).symm)
    | notSent e =>
      -- the loop ends here, so all depends on the candidates that are not tried any more
      refine (exhaustive_cons rfl).trans (Iff.trans ?_ sentOrOver_notSent.symm)
      unfold Exhaustive
      cases firstAnswered (env.fates domain isC2s streamOpen srvs st') with
      | none => exact iff_of_true ⟨e, rfl⟩ rfl
      | some found => exact iff_of_false (fun h => by cases h) (fun h => by cases h)
    | answered conn serverResponse => exact iff_of_true rfl sentOrOver_answered
    | pending => cases hhead
    | panicked => cases hhead

/-- The candidates are tried until one answers, and only where none is stopped by a header that it does not
take in front of one that would answer. -/
theorem srvConnect_exhaustive [HttpUri Uri] [DecidableEq ServerName] (env : OutgoingConfig ServerName)
    (sort : SortBy) (domain : Bytes) (isC2s : Bool) (streamOpen : Bytes) (inFilter : StanzaFilter)
    (srvs : List (XmppConnection Uri)) (v : XmppServerCertVerifier ServerName)
    (h : env.net.getXmppConnections sort domain isC2s = .ok (srvs, v))
    (hdecided : ∀ f ∈ (env.withCustomCertificateVerifier v).fates domain isC2s streamOpen srvs ⟨inFilter, 0, []⟩,
      f.2.decided = true) :
    Exhaustive ((env.withCustomCertificateVerifier v).fates domain isC2s streamOpen srvs ⟨inFilter, 0, []⟩)
        (env.srvConnect sort domain isC2s streamOpen inFilter).1 ↔
      SentOrOver
        ((env.withCustomCertificateVerifier v).fates domain isC2s streamOpen srvs ⟨inFilter, 0, []⟩) := by
  have hrun : env.srvConnect sort domain isC2s streamOpen inFilter =
      (env.withCustomCertificateVerifier v).tryCandidates domain isC2s streamOpen srvs ⟨inFilter, 0, []⟩ := by
    unfold OutgoingConfig.srvConnect
    rw [h]
  rw [hrun]
  exact tryCandidates_exhaustive _ domain isC2s streamOpen srvs _ hdecided

/-- A peer that proceeds with TLS and answers the header, or that does not take it when it is `cut`. -/
def exampleAnswer (header : WriteResult) : Answer where
  connected := true
  opened := .done
  preTls := arriving (bytes "<proceed />")
  secured := true
  header
  preamble
    | .asyncRead => arriving (bytes "<stream:stream >")
    | .webSocketRead => []

/-- The first attempt meets a peer that takes nothing, or all of them take the header. -/
def exampleOutgoing (first : WriteResult) : OutgoingConfig Bytes where
  net := exampleNet
  lookupIp _ := .ok [.ofV4 192 0 2 2]
  answers _ n := exampleAnswer (if n = 0 then first else .done)
  trace := false

/-- The verifier of `a.org`, whose host-meta.json names `b.org`. -/
def exampleVerifier : XmppServerCertVerifier Bytes := ⟨[bytes "a.org", bytes "b.org"], none, []⟩

theorem srvConnect_exhaustive_example :
    Exhaustive (((exampleOutgoing .done).withCustomCertificateVerifier exampleVerifier).fates (bytes "a.org")
        true (bytes "<stream:stream >") exampleConnections ⟨.new 64, 0, []⟩)
      ((exampleOutgoing .done).srvConnect insertionSortBy (bytes "a.org") true (bytes "<stream:stream >")
        (.new 64)).1 ↔
    SentOrOver (((exampleOutgoing .done).withCustomCertificateVerifier exampleVerifier).fates (bytes "a.org")
        true (bytes "<stream:stream >") exampleConnections ⟨.new 64, 0, []⟩) :=
  srvConnect_exhaustive (exampleOutgoing .done) insertionSortBy (bytes "a.org") true
    (bytes "<stream:stream >") (.new 64) exampleConnections exampleVerifier rfl (by decide)

/-- The second candidate would answer, but the loop ends where the first one does not take the header. -/
theorem srvConnect_not_exhaustive :
    ¬ ∀ (env : OutgoingConfig Bytes) (sort : SortBy) (domain : Bytes) (isC2s : Bool) (streamOpen : Bytes)
      (inFilter : StanzaFilter) (srvs : List (XmppConnection Empty)) (v : XmppServerCertVerifier Bytes),
      env.net.getXmppConnections sort domain isC2s = .ok (srvs, v) →
      (∀ f ∈ (env.withCustomCertificateVerifier v).fates domain isC2s streamOpen srvs ⟨inFilter, 0, []⟩,
        f.2.decided = true) →
        Exhaustive ((env.withCustomCertificateVerifier v).fates domain isC2s streamOpen srvs ⟨inFilter, 0, []⟩)
          (env.srvConnect sort domain isC2s streamOpen inFilter).1 := by
  intro h
  have hex := h (exampleOutgoing (.cut 0)) insertionSortBy (bytes "a.org") true (bytes "<stream:stream >")
    (.new 64) exampleConnections exampleVerifier rfl (by decide)
  have hanswered : (firstAnswered (((exampleOutgoing (.cut 0)).withCustomCertificateVerifier
      exampleVerifier).fates (bytes "a.org") true (bytes "<stream:stream >") exampleConnections
        ⟨.new 64, 0, []⟩)).isSome = true := by decide
  have hresult : ((exampleOutgoing (.cut 0)).srvConnect insertionSortBy (bytes "a.org") true
      (bytes "<stream:stream >") (.new 64) :
        Option (Outcome (XmppConnection Empty × Connected × Bytes)) × Dialing).1 = some (.err .io) := rfl
  obtain ⟨found, hfound⟩ := Option.isSome_iff_exists.mp hanswered
  rw [Exhaustive, hfound, hresult] at hex
  cases hex

end XmppProxy
