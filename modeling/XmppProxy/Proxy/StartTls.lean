import XmppProxy.Proxy.Series
import XmppProxy.Stanza.Quoting
import XmppProxy.Stanza.Units

/-! A proxy dials another one with STARTTLS: the two as one machine, what they say to each other in plain text, and
what one byte more does to each of them. -/

namespace XmppProxy

open Lib Stanza

theorem headerTag_streamReply {t : Bytes} (h : HeaderTag t) : HeaderTag (streamReply t) := by
  have hto : Exchangeable (bytes " to=") (bytes " bla toblala=") := ⟨by decide, rfl, rfl, by decide⟩
  have hfrom : Exchangeable (bytes " from=") (bytes " to=") := ⟨by decide, rfl, rfl, by decide⟩
  have hback : Exchangeable (bytes " bla toblala=") (bytes " from=") := ⟨by decide, rfl, rfl, by decide⟩
  have hid : Exchangeable (bytes " bla toblala=") (bytes " id='xmpp-proxy' from=") := ⟨by decide, rfl, rfl, by decide⟩
  have hsingle : Exchangeable (bytes " id='") (bytes " id='xmpp-proxy") :=
    ⟨by decide, rfl, rfl, by decide⟩
  have hdouble : Exchangeable (bytes " id=\"") (bytes " id=\"xmpp-proxy") :=
    ⟨by decide, rfl, rfl, by decide⟩
  unfold streamReply
  dsimp only
  split_ifs
  · exact ((((h.replaceFirst hsingle).replaceFirst hdouble).replaceFirst hto).replaceFirst hfrom).replaceFirst hback
  · exact ((h.replaceFirst hto).replaceFirst hfrom).replaceFirst hid

def PreTls.written (res : WriteResult) : Option Bytes → List Sent
  | some buf =>
    if bytes "<?xml " <+: buf ∨ bytes "<stream:stream " <+: buf then []
    else if bytes "<stream:features" <+: buf then (transmit (some (.raw Outgoing.starttls)) res).2
    else []
  | none => []

def TlsConnection.plain : TlsConnection → List Sent
  | preTls _ sent | discarding _ sent | accepting _ sent | accepted _ sent | websocket _ sent | ended _ sent => sent
  | sniffing _ | running _ => []

/-- The one that dials and the one that answers, what the first one has written, and how much of what the other
has written each of them has read. -/
structure Negotiation where
  client : PreTls
  server : TlsConnection
  written : Bytes
  taken : Nat
  heard : Nat
  secured : Bool

/-- Which of the two goes on: it reads the next byte that is there, or begins the handshake. -/
inductive NegotiationEvent where
  | clientReads
  | serverReads
  | clientHello
  deriving DecidableEq, Repr

namespace Negotiation

variable {Cert Verifier : Type}

def start (f f' : StanzaFilter) (streamOpen : Bytes) : Negotiation :=
  ⟨.reading f, .sniffing f', streamOpen, 0, 0, false⟩

def toServer (s : Negotiation) : Bytes := s.written.drop s.taken

def toClient (s : Negotiation) : Bytes := (rawBytes s.server.plain).drop s.heard

/-- The server sees three bytes to tell TLS from plain text, and one at a time behind `<starttls`; it leaves them
where they are. Its handshake reads on from there. -/
def serverStep (env : Incoming Cert Verifier) (s : Negotiation) : Negotiation :=
  match s.server, s.toServer with
  | .sniffing f, b₀ :: b₁ :: b₂ :: _ =>
    { s with server := (TlsConnection.step env (.sniffing f) (.hello b₀ b₁ b₂)).2 }
  | .preTls f sent, b :: _ =>
    { s with server := (TlsConnection.step env (.preTls f sent) (.plain (.byte b) .done)).2, taken := s.taken + 1 }
  | .discarding f sent, b :: _ =>
    { s with
      server := (TlsConnection.step env (.discarding f sent) (.next b)).2
      taken := if b = 0x16 then s.taken else s.taken + 1 }
  | _, _ => s

def clientStep (s : Negotiation) : Negotiation :=
  match s.client, s.toClient with
  | .reading f, b :: _ =>
    let (buf, client) := PreTls.step (.byte b) .done (.reading f)
    { s with client, written := s.written ++ rawBytes (PreTls.written .done buf), heard := s.heard + 1 }
  | _, _ => s

def step (env : Incoming Cert Verifier) (hello : Bytes) (s : Negotiation) : NegotiationEvent → Negotiation
  | .clientReads => s.clientStep
  | .serverReads => s.serverStep env
  | .clientHello =>
    match s.client with
    | .proceeding _ => if s.secured then s else { s with written := s.written ++ hello, secured := true }
    | _ => s

end Negotiation

/-- The two over any interleaving. `hello` is what the handshake of the client writes. -/
def negotiation {Cert Verifier : Type} (env : Incoming Cert Verifier) (hello : Bytes) :
    Machine Negotiation NegotiationEvent Unit := ⟨fun s ev => ((), s.step env hello ev)⟩

section

variable (decls : List Bytes) (header : Bytes)

def asked : List Bytes := decls ++ [header]

def offered : List Bytes := decls ++ [streamReply header, streamFeatures]

end

def serverReply (u : Bytes) : Bytes :=
  if declTag <+: u then u else if streamTag <+: u then streamReply u ++ streamFeatures else proceed

def clientReply (u : Bytes) : Bytes := rawBytes (PreTls.written .done (some u))

structure Preface (decls : List Bytes) (header : Bytes) : Prop where
  decls : ∀ d ∈ decls, declTag <+: d ∧ StanzaUnit d
  header : HeaderTag header

theorem starttls_unit : StanzaUnit Outgoing.starttls := by
  have h : EmptyTag Outgoing.starttls :=
    emptyTag_of 115 (bytes "tarttls xmlns='urn:ietf:params:xml:ns:xmpp-tls'") (by decide) (by decide) (by decide)
  exact .element (.empty h) h.not_stream

theorem proceed_unit : StanzaUnit proceed := by
  have h : EmptyTag proceed :=
    emptyTag_of 112 (bytes "roceed xmlns=\"urn:ietf:params:xml:ns:xmpp-tls\" ") (by decide) (by decide) (by decide)
  exact .element (.empty h) h.not_stream

theorem features_unit : StanzaUnit streamFeatures := by
  have hfirst : OpenTag (bytes "<stream:features>") :=
    openTag_of 115 (bytes "tream:features") (by decide) (by decide) (by decide) (by decide)
  have hopen : OpenTag (bytes "<starttls xmlns=\"urn:ietf:params:xml:ns:xmpp-tls\">") :=
    openTag_of 115 (bytes "tarttls xmlns=\"urn:ietf:params:xml:ns:xmpp-tls\"") (by decide) (by decide) (by decide)
      (by decide)
  have hrequired : EmptyTag (bytes "<required/>") :=
    emptyTag_of 114 (bytes "equired") (by decide) (by decide) (by decide)
  have hclose : CloseTag (bytes "</starttls>") :=
    closeTag_of 115 (bytes "tarttls") (by decide) (by decide) (by decide) (by decide)
  have hlast : CloseTag (bytes "</stream:features>") :=
    closeTag_of 115 (bytes "tream:features") (by decide) (by decide) (by decide) (by decide)
  have hcontent := Content.of_node hopen (Content.of_empty hrequired) hclose
  have hsplit : streamFeatures = bytes "<stream:features>" ++
      (bytes "<starttls xmlns=\"urn:ietf:params:xml:ns:xmpp-tls\">" ++ (bytes "<required/>" ++ bytes "</starttls>") ++
        bytes "</stream:features>") := by decide
  rw [hsplit]
  exact .element (.node hfirst hcontent hlast) fun h => absurd h.2 (by decide)

namespace Preface

variable {decls : List Bytes} {header : Bytes} (h : Preface decls header)
include h

theorem serverReply_asked : (asked decls header).flatMap serverReply = (offered decls header).flatten := by
  have hdecls : decls.flatMap serverReply = decls.flatten := by
    have hself : ∀ d ∈ decls, serverReply d = d := fun d hd => if_pos (h.decls d hd).1
    rw [List.flatMap_congr hself, List.flatMap_id']
  have hheader : serverReply header = streamReply header ++ streamFeatures := by
    unfold serverReply
    rw [if_neg (stream_not_decl h.header.opens), if_pos h.header.opens]
  unfold asked offered
  rw [List.flatMap_append, List.flatMap_singleton, hdecls, hheader, List.flatten_append]
  simp

theorem asked_opens {u : Bytes} (hu : u ∈ asked decls header) : declTag <+: u ∨ streamTag <+: u := by
  rcases List.mem_append.mp hu with hu | hu
  · exact .inl (h.decls u hu).1
  · exact .inr (List.mem_singleton.mp hu ▸ h.header.opens)

theorem clientReply_eq : (∀ u ∈ asked decls header, clientReply u = []) ∧ clientReply (streamReply header) = [] ∧
    clientReply streamFeatures = Outgoing.starttls ∧ clientReply proceed = [] := by
  have hquiet : ∀ {u : Bytes}, declTag <+: u ∨ streamTag <+: u → clientReply u = [] := by
    intro u hu
    unfold clientReply PreTls.written
    dsimp only
    rw [if_pos hu]
    rfl
  exact ⟨fun u hu => hquiet (h.asked_opens hu), hquiet (.inr (headerTag_streamReply h.header).opens), by decide,
    by decide⟩

theorem clientReply_decls : decls.flatMap clientReply = [] :=
  List.flatMap_eq_nil_iff.mpr fun d hd => h.clientReply_eq.1 d (List.mem_append_left _ hd)

theorem clientReply_offered : (offered decls header).flatMap clientReply = Outgoing.starttls := by
  obtain ⟨-, hheader, hfeatures, -⟩ := h.clientReply_eq
  unfold offered
  rw [List.flatMap_append, h.clientReply_decls, List.flatMap_cons, hheader, List.flatMap_singleton, hfeatures]
  rfl

theorem clientReply_all : (offered decls header ++ [proceed]).flatMap clientReply = Outgoing.starttls := by
  rw [List.flatMap_append, h.clientReply_offered, List.flatMap_singleton, h.clientReply_eq.2.2.2, List.append_nil]

theorem serverReply_all : (asked decls header ++ [Outgoing.starttls]).flatMap serverReply =
    (offered decls header ++ [proceed]).flatten := by
  have hlast : serverReply Outgoing.starttls = proceed := by decide
  rw [List.flatMap_append, h.serverReply_asked, List.flatMap_singleton, hlast, List.flatten_append,
    List.flatten_singleton]

theorem fit_asked {m : Nat} (hroom : ∀ u ∈ asked decls header ++ [Outgoing.starttls], u.length ≤ m) :
    Fit m (asked decls header ++ [Outgoing.starttls]) := by
  intro u hu
  refine ⟨?_, hroom u hu⟩
  rcases List.mem_append.mp hu with hu | hu
  · rcases List.mem_append.mp hu with hu | hu
    · exact (h.decls u hu).2
    · exact List.mem_singleton.mp hu ▸ h.header.unit
  · exact List.mem_singleton.mp hu ▸ starttls_unit

theorem fit_offered {n : Nat} (hroom : ∀ u ∈ offered decls header ++ [proceed], u.length ≤ n) :
    Fit n (offered decls header ++ [proceed]) := by
  intro u hu
  refine ⟨?_, hroom u hu⟩
  rcases List.mem_append.mp hu with hu | hu
  · rcases List.mem_append.mp hu with hu | hu
    · exact (h.decls u hu).2
    · rcases List.mem_pair.mp hu with rfl | rfl
      · exact (headerTag_streamReply h.header).unit
      · exact features_unit
  · exact List.mem_singleton.mp hu ▸ proceed_unit

/-- The server does not take what is said for TLS, and has room to find that out. -/
theorem asked_head : ∃ b₁ b₂ rest, (asked decls header).flatten = lt :: b₁ :: b₂ :: rest := by
  have hopen : ∀ {u x : Bytes}, declTag <+: u ∨ streamTag <+: u → ∃ b₁ b₂ rest, u ++ x = lt :: b₁ :: b₂ :: rest := by
    intro u x hu
    rcases hu with ⟨r, rfl⟩ | ⟨r, rfl⟩
    · exact ⟨_, _, _, rfl⟩
    · exact ⟨_, _, _, rfl⟩
  unfold asked
  cases decls with
  | nil => exact hopen (.inr h.header.opens)
  | cons d decls => exact hopen (.inl (h.decls d (List.mem_cons_self ..)).1)

end Preface

section

variable {f f' : StanzaFilter} {sent : List Sent} {b : UInt8} {u : Bytes}

theorem PreTls.step_quiet (h : StanzaRead.pollNext f (.byte b) = (none, f')) :
    PreTls.step (.byte b) .done (.reading f) = (none, .reading f') := by
  unfold PreTls.step
  dsimp only
  rw [h]

theorem PreTls.step_stanza (h : StanzaRead.pollNext f (.byte b) = (some (.ok (some u)), f')) :
    PreTls.step (.byte b) .done (.reading f) = (some u, PreTls.answer f' u .done) := by
  unfold PreTls.step
  dsimp only
  rw [h]

theorem preTlsStep_quiet (h : StanzaRead.pollNext f (.byte b) = (none, f')) :
    TlsConnection.preTlsStep f sent (.byte b) .done = .preTls f' sent := by
  unfold TlsConnection.preTlsStep
  rw [h]

theorem preTlsStep_stanza (h : StanzaRead.pollNext f (.byte b) = (some (.ok (some u)), f'))
    (hu : declTag <+: u ∨ streamTag <+: u) :
    TlsConnection.preTlsStep f sent (.byte b) .done = .preTls f' (sent ++ [.raw (serverReply u)]) := by
  unfold TlsConnection.preTlsStep serverReply
  rw [h]
  dsimp only
  by_cases hd : declTag <+: u
  · rw [if_pos hd, if_pos hd]
    rfl
  · rw [if_neg hd, if_neg hd, if_pos (hu.resolve_left hd), if_pos (hu.resolve_left hd)]
    rfl

theorem preTlsStep_starttls
    (h : StanzaRead.pollNext f (.byte b) = (some (.ok (some Outgoing.starttls)), f')) :
    TlsConnection.preTlsStep f sent (.byte b) .done = .discarding f' (sent ++ [.raw (serverReply Outgoing.starttls)]) := by
  have hnot : ¬ declTag <+: Outgoing.starttls ∧ ¬ streamTag <+: Outgoing.starttls ∧
      bytes "<starttls " <+: Outgoing.starttls := by decide
  unfold TlsConnection.preTlsStep serverReply
  rw [h]
  dsimp only
  rw [if_neg hnot.1, if_neg hnot.2.1, if_pos hnot.2.2, if_neg hnot.1, if_neg hnot.2.1]
  rfl

theorem sniffing_text {Cert Verifier : Type} (env : Incoming Cert Verifier) {b₁ b₂ : UInt8}
    (h : [lt, b₁, b₂].length ≤ f.bufSize) :
    (TlsConnection.step env (.sniffing f) (.hello lt b₁ b₂)).2 = .preTls (f.scratch [lt, b₁, b₂] h) [] := by
  unfold TlsConnection.step TlsConnection.peek
  dsimp only
  rw [dif_pos h]
  exact if_neg fun hx => absurd hx.1 (by decide)

theorem discarding_hello {Cert Verifier : Type} (env : Incoming Cert Verifier) (h : [(0x16 : UInt8)].length ≤ f.bufSize) :
    (TlsConnection.step env (.discarding f sent) (.next 0x16)).2 = .accepting (f.scratch [0x16] h) sent := by
  unfold TlsConnection.step TlsConnection.peek
  dsimp only
  rw [dif_pos h]
  rfl

theorem answer_proceed : PreTls.answer f proceed .done = .proceeding f := by
  have hnot : ¬ (declTag <+: proceed ∨ streamTag <+: proceed) ∧ ¬ bytes "<stream:features" <+: proceed ∧
      bytes "<proceed " <+: proceed := by decide
  unfold PreTls.answer
  rw [if_neg hnot.1, if_neg hnot.2.1, if_pos hnot.2.2]

theorem Preface.answer_offered {decls : List Bytes} {header : Bytes} (h : Preface decls header)
    (hu : u ∈ offered decls header) : PreTls.answer f u .done = .reading f := by
  unfold PreTls.answer
  rcases List.mem_append.mp hu with hu | hu
  · rw [if_pos (.inl (h.decls u hu).1)]
  · rcases List.mem_pair.mp hu with rfl | rfl
    · rw [if_pos (.inr (headerTag_streamReply h.header).opens)]
    · have hnot : ¬ (declTag <+: streamFeatures ∨ streamTag <+: streamFeatures) := by decide
      have hfeatures : bytes "<stream:features" <+: streamFeatures := by decide +kernel
      rw [if_neg hnot, if_pos hfeatures]
      rfl

end

end XmppProxy
