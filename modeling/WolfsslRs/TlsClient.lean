import WolfsslRs.TlsHandshake
/-!
# TlsClient — client sessions, from the configuration to the handshake (wolfcrypt-tls)

A configuration is a `WOLFSSL_CTX` with trusted roots and peer verification on; a session is opened from it on one of
four ways, each of which hands the server's name to `wolfSSL_UseSNI` and none to `wolfSSL_check_domain_name`.  What a
successful handshake then says of the peer is what wolfSSL checks of a session so configured.
-/
namespace Wolf
namespace Tls

inductive ProtocolVersion where
  | tls12
  | tls13
  deriving DecidableEq, Repr

inductive CertFormat where
  | pem
  | der
  deriving DecidableEq, Repr

structure CertEntry where
  data : Bytes
  format : CertFormat
  deriving DecidableEq, Repr

/-- What a `WOLFSSL_CTX` has been told. -/
structure Ctx where
  method : String
  roots : List CertEntry
  verifyPeer : Bool
  clientAuth : Option (CertEntry × CertEntry)
  deriving DecidableEq, Repr

/-- What a `WOLFSSL` session has been told: the name for SNI, and the name to check the certificate against, which only
`wolfSSL_check_domain_name` sets. -/
structure Ssl where
  ctx : Ctx
  sni : Option Bytes
  domain : Option Bytes
  deriving DecidableEq, Repr

/-- The wolfSSL library: whether its allocating calls give a pointer, what its other calls return, and how a session and
its peer behave. -/
structure Wolfssl where
  method : String → Bool
  ctxNew : String → Bool
  ctxSetMinVersion : Ctx → Int
  ctxLoadVerifyBuffer : Ctx → CertEntry → Int
  ctxUseCertificateBuffer : Ctx → CertEntry → Int
  ctxUsePrivateKeyBuffer : Ctx → CertEntry → Int
  new : Ctx → Bool
  useSni : Ssl → Bytes → Int
  session : Ssl → Env
  verifyResult : Ssl → Int
  verifyErrorString : Int → String

/-! ## The configuration -/

structure TlsClientConfigBuilder where
  protocolVersions : Option (List ProtocolVersion)
  rootStore : Option (List CertEntry)
  clientCert : Option CertEntry
  clientKey : Option CertEntry
  deriving DecidableEq, Repr

structure TlsClientConfig where
  ctx : Ctx
  deriving DecidableEq, Repr

def expectWolfsslSuccess (ret : Int) (func : String) : Except TlsError Int :=
  if ret = wolfsslSuccess then .ok ret else .error (.ffi ret func)

section Config

variable (w : Wolfssl)

/-- The client side of `resolve_method`. -/
def resolveMethod (versions : Option (List ProtocolVersion)) : Except TlsError String := do
  let func ← match versions with
    | some [.tls12] => pure "wolfTLSv1_2_client_method"
    | some [.tls13] => pure "wolfTLSv1_3_client_method"
    | none | some [.tls12, .tls13] | some [.tls13, .tls12] => pure "wolfSSLv23_client_method"
    | some _ => throw (.invalidConfig "protocol_versions must be [Tls12], [Tls13], or [Tls12, Tls13]")
  if w.method func then return func else throw (.allocFailed func)

def loadRoot (ctx : Ctx) (entry : CertEntry) : Except TlsError Ctx := do
  let _ ← expectWolfsslSuccess (w.ctxLoadVerifyBuffer ctx entry) "wolfSSL_CTX_load_verify_buffer"
  return { ctx with roots := ctx.roots ++ [entry] }

def loadClientAuth (b : TlsClientConfigBuilder) (ctx : Ctx) : Except TlsError Ctx :=
  match b.clientCert, b.clientKey with
  | some cert, some key => do
    let _ ← expectWolfsslSuccess (w.ctxUseCertificateBuffer ctx cert) "wolfSSL_CTX_use_certificate_buffer"
    let _ ← expectWolfsslSuccess (w.ctxUsePrivateKeyBuffer ctx key) "wolfSSL_CTX_use_PrivateKey_buffer"
    return { ctx with clientAuth := some (cert, key) }
  | _, _ => return ctx

def TlsClientConfigBuilder.build (b : TlsClientConfigBuilder) : Except TlsError TlsClientConfig :=
  match b.rootStore with
  | none => .error (.invalidConfig "root certificates are required")
  | some store => do
    let method ← resolveMethod w b.protocolVersions
    if w.ctxNew method then
      let ctx : Ctx := ⟨method, [], false, none⟩
      let _ ← expectWolfsslSuccess (w.ctxSetMinVersion ctx) "wolfSSL_CTX_SetMinVersion"
      let ctx ← store.foldlM (loadRoot w) ctx
      let ctx ← loadClientAuth w b { ctx with verifyPeer := true }
      return ⟨ctx⟩
    else throw (.allocFailed "wolfSSL_CTX_new")

/-! ## Sessions -/

/-- The part the ways to a session share. -/
def openSession (config : TlsClientConfig) (serverName : Bytes) : Except TlsError Ssl :=
  if 253 < serverName.length then
    .error (.invalidConfig "server name exceeds maximum DNS hostname length (253 bytes)")
  else if w.new config.ctx then
    let ssl : Ssl := ⟨config.ctx, none, none⟩
    if serverName = [] then .ok ssl
    else
      let ret := w.useSni ssl serverName
      if ret = wolfsslSuccess then .ok { ssl with sni := some serverName } else .error (.ffi ret "wolfSSL_UseSNI")
  else .error (.allocFailed "wolfSSL_new")

def newSessionWithIo (config : TlsClientConfig) (serverName : Bytes) : Except TlsError Ssl :=
  openSession w config serverName

def newSslWithIoCallbacks (config : TlsClientConfig) (serverName : Bytes) : Except TlsError Ssl :=
  openSession w config serverName

/-- `X509_V_OK`. -/
def x509VOk : Int := 0

/-- `TlsClient::new`: the handshake is made at once, on a blocking transport. -/
def TlsClient.new (config : TlsClientConfig) (serverName : Bytes) : Except TlsError Ssl := do
  let ssl ← openSession w config serverName
  let r := ((w.session ssl).sslHandshake []).ret
  if r.ret = wolfsslSuccess then return ssl
  else if w.verifyResult ssl ≠ x509VOk then
    throw (.certificateVerification (w.verifyResult ssl) (w.verifyErrorString (w.verifyResult ssl)))
  else throw (.ffi r.err "wolfSSL_connect")

/-- `TlsConnector::connect`, the same in both asynchronous crates: the session, and the future that drives it. -/
def TlsConnector.connect (config : TlsClientConfig) (serverName : Bytes) : Except Error (Ssl × Handshake) :=
  match newSessionWithIo w config serverName with
  | .error e => .error (.tls e)
  | .ok ssl => .ok (ssl, ⟨some newStream, false⟩)

end Config

/-! ## What wolfSSL checks -/

/-- A peer: whether its chain leads to one of the given roots, and which host names its certificate is valid for. -/
structure Peer where
  chainTrusted : List CertEntry → Bool
  validFor : Bytes → Bool

/-- What wolfSSL asks of a peer: a trusted chain if peer verification is on, and the host name if one is to be
checked. -/
def Ssl.accepts (peer : Peer) (ssl : Ssl) : Bool :=
  (!ssl.ctx.verifyPeer || peer.chainTrusted ssl.ctx.roots) && ssl.domain.all peer.validFor

/-- A handshake with `peer` succeeds only if wolfSSL accepts it. -/
def Wolfssl.Checks (w : Wolfssl) (peer : Peer) : Prop :=
  ∀ ssl log, ((w.session ssl).sslHandshake log).ret.ret = wolfsslSuccess → ssl.accepts peer = true

/-- The ways to a client session: `TlsClient::new`, the two session constructors with a handshake the caller drives, and
the connectors. -/
inductive Path where
  | tlsClient
  | sessionWithIo
  | sslWithIoCallbacks
  | connector (rt : Runtime)
  deriving DecidableEq, Repr

/-- **The handshake of a session is reported as successful.** -/
def Reports (w : Wolfssl) (config : TlsClientConfig) (serverName : Bytes) : Path → Prop
  | .tlsClient => ∃ ssl, TlsClient.new w config serverName = .ok ssl
  | .sessionWithIo => ∃ ssl log, newSessionWithIo w config serverName = .ok ssl ∧
      ((w.session ssl).sslHandshake log).ret.ret = wolfsslSuccess
  | .sslWithIoCallbacks => ∃ ssl log, newSslWithIoCallbacks w config serverName = .ok ssl ∧
      ((w.session ssl).sslHandshake log).ret.ret = wolfsslSuccess
  | .connector rt => ∃ ssl h n k stream, TlsConnector.connect w config serverName = .ok (ssl, h) ∧
      pollUntilReady (Connect.poll (w.session ssl) rt n) k h = some (.ok stream)

/-! ## From the builder to the session -/

theorem foldlM_loadRoot (w : Wolfssl) : ∀ (store : List CertEntry) (ctx ctx' : Ctx),
    store.foldlM (loadRoot w) ctx = .ok ctx' → ctx' = { ctx with roots := ctx.roots ++ store }
  | [], ctx, ctx', h => by
    cases h
    rw [List.append_nil]
  | e :: store, ctx, ctx', h => by
    rw [List.foldlM_cons] at h
    obtain ⟨ctx₁, h₁, h⟩ := Program.bind_ok.1 h
    obtain ⟨_, -, h₁⟩ := Program.bind_ok.1 h₁
    cases h₁
    rw [foldlM_loadRoot w store _ ctx' h, List.append_assoc, List.singleton_append]

theorem loadClientAuth_ok {w : Wolfssl} {b : TlsClientConfigBuilder} {ctx ctx' : Ctx}
    (h : loadClientAuth w b ctx = .ok ctx') : ctx'.verifyPeer = ctx.verifyPeer ∧ ctx'.roots = ctx.roots := by
  unfold loadClientAuth at h
  split at h
  · obtain ⟨_, -, h⟩ := Program.bind_ok.1 h
    obtain ⟨_, -, h⟩ := Program.bind_ok.1 h
    cases h
    exact ⟨rfl, rfl⟩
  · cases h
    exact ⟨rfl, rfl⟩

/-- **A built configuration verifies its peers against the roots it was given.** -/
theorem build_ok {w : Wolfssl} {b : TlsClientConfigBuilder} {store : List CertEntry} {config : TlsClientConfig}
    (hstore : b.rootStore = some store) (h : b.build w = .ok config) :
    config.ctx.verifyPeer = true ∧ config.ctx.roots = store := by
  unfold TlsClientConfigBuilder.build at h
  rw [hstore] at h
  obtain ⟨method, -, h⟩ := Program.bind_ok.1 h
  split at h
  · obtain ⟨_, -, h⟩ := Program.bind_ok.1 h
    obtain ⟨ctx, hload, h⟩ := Program.bind_ok.1 h
    obtain ⟨ctx', hauth, h⟩ := Program.bind_ok.1 h
    cases h
    obtain ⟨hv, hr⟩ := loadClientAuth_ok hauth
    rw [foldlM_loadRoot w store _ ctx hload] at hr
    exact ⟨hv, hr⟩
  · cases h

theorem openSession_ok {w : Wolfssl} {config : TlsClientConfig} {serverName : Bytes} {ssl : Ssl}
    (hname : serverName ≠ []) (h : openSession w config serverName = .ok ssl) :
    serverName.length ≤ 253 ∧ ssl = ⟨config.ctx, some serverName, none⟩ := by
  unfold openSession at h
  rw [if_neg hname] at h
  split at h
  · cases h
  rename_i hlen
  split at h
  · dsimp only at h
    split at h
    · cases h
      exact ⟨Nat.le_of_not_lt hlen, rfl⟩
    · cases h
  · cases h

/-- **Behind every report of success stands a session and a handshake wolfSSL reported as done.** -/
theorem Reports.opened {w : Wolfssl} {config : TlsClientConfig} {serverName : Bytes} {path : Path}
    (h : Reports w config serverName path) :
    ∃ ssl log, openSession w config serverName = .ok ssl ∧
      ((w.session ssl).sslHandshake log).ret.ret = wolfsslSuccess := by
  cases path with
  | tlsClient =>
    obtain ⟨ssl', h⟩ := h
    obtain ⟨ssl, hopen, h⟩ := Program.bind_ok.1 h
    refine ⟨ssl, [], hopen, ?_⟩
    simp only at h
    split at h
    · assumption
    · split at h <;> cases h
  | sessionWithIo => exact h
  | sslWithIoCallbacks => exact h
  | connector rt =>
    obtain ⟨ssl, h', n, k, stream, hconn, hpoll⟩ := h
    unfold TlsConnector.connect newSessionWithIo at hconn
    cases hopen : openSession w config serverName with
    | error e => rw [hopen] at hconn; cases hconn
    | ok ssl₀ =>
      rw [hopen] at hconn
      cases hconn
      have hinv : Handshake.Inv (w.session ssl) newStream ⟨some newStream, false⟩ :=
        ⟨fun st hst => by cases hst; exact .refl _, fun hd => by cases hd⟩
      obtain ⟨-, log, hlog⟩ := pollUntilReady_sound _ rt _ n newStream k _ _ hinv hpoll
      exact ⟨ssl, log, rfl, hlog⟩

/-! ## Success and the server's name -/

/-- A session whose handshake ends at once, as `accepted` says. -/
def promptSession (accepted : Bool) : Env where
  ioRead _ := .pending
  ioWrite _ buf := .ok buf.length
  ioShutdown _ := .ok ()
  sslRead _ := ⟨[], .failed wantRead⟩
  sslWrite _ buf := ⟨[.send buf], ⟨buf.length, 0⟩⟩
  sslShutdown _ := ⟨[], ⟨1, 0⟩⟩
  sslHandshake _ := ⟨[], if accepted then ⟨wolfsslSuccess, 0⟩ else ⟨-1, -188⟩⟩
  errorString _ := "ASN no signer error to confirm failure"

/-- A wolfSSL all of whose calls succeed, and which lets a handshake succeed exactly with the peers it accepts. -/
def promptWolfssl (peer : Peer) : Wolfssl where
  method _ := true
  ctxNew _ := true
  ctxSetMinVersion _ := wolfsslSuccess
  ctxLoadVerifyBuffer _ _ := wolfsslSuccess
  ctxUseCertificateBuffer _ _ := wolfsslSuccess
  ctxUsePrivateKeyBuffer _ _ := wolfsslSuccess
  new _ := true
  useSni _ _ := wolfsslSuccess
  session ssl := promptSession (ssl.accepts peer)
  verifyResult ssl := if ssl.accepts peer then x509VOk else 20
  verifyErrorString _ := "unable to get local issuer certificate"

theorem promptWolfssl_checks (peer : Peer) : (promptWolfssl peer).Checks peer := by
  intro ssl log h
  cases ha : ssl.accepts peer with
  | true => rfl
  | false =>
    simp only [promptWolfssl, promptSession, ha] at h
    cases h

theorem promptWolfssl_opens (config : TlsClientConfig) {serverName : Bytes} (peer : Peer) (hname : serverName ≠ [])
    (hlen : serverName.length ≤ 253) :
    openSession (promptWolfssl peer) config serverName = .ok ⟨config.ctx, some serverName, none⟩ := by
  unfold openSession
  rw [if_neg (Nat.not_lt.2 hlen)]
  simp only [promptWolfssl, if_neg hname, if_true]

theorem promptWolfssl_reports (config : TlsClientConfig) (serverName : Bytes) (peer : Peer) (hname : serverName ≠ [])
    (hlen : serverName.length ≤ 253) (ha : Ssl.accepts peer ⟨config.ctx, some serverName, none⟩ = true) (path : Path) :
    Reports (promptWolfssl peer) config serverName path := by
  have hopen := promptWolfssl_opens config peer hname hlen
  have hsession : (promptWolfssl peer).session ⟨config.ctx, some serverName, none⟩ = promptSession true := by
    rw [← ha]; rfl
  cases path with
  | tlsClient =>
    refine ⟨⟨config.ctx, some serverName, none⟩, ?_⟩
    unfold TlsClient.new
    rw [hopen]
    simp only [bind, Except.bind, hsession]
    rfl
  | sessionWithIo => exact ⟨_, [], hopen, by rw [hsession]; rfl⟩
  | sslWithIoCallbacks => exact ⟨_, [], hopen, by rw [hsession]; rfl⟩
  | connector rt =>
    refine ⟨⟨config.ctx, some serverName, none⟩, ⟨some newStream, false⟩, 1, 1,
      newStream.ran [] (.sslHandshake [] ⟨wolfsslSuccess, 0⟩), ?_, ?_⟩
    · unfold TlsConnector.connect newSessionWithIo
      rw [hopen]
    · rw [hsession]
      rfl

/-- **When success vouches for the server's name**: a success reported on any way to a session with a configuration
that was built, for a name that is not empty, entails that the peer's certificate is valid for the name exactly if it
is so anyway, or the handshake cannot succeed at all, the chain not being trusted or the name being too long. -/
theorem success_vouches_for_name_iff (w₀ : Wolfssl) (b : TlsClientConfigBuilder) (store : List CertEntry)
    (config : TlsClientConfig) (hstore : b.rootStore = some store) (hbuild : b.build w₀ = .ok config)
    (serverName : Bytes) (hname : serverName ≠ []) (peer : Peer) (path : Path) :
    (∀ w : Wolfssl, w.Checks peer → Reports w config serverName path → peer.validFor serverName = true) ↔
      peer.validFor serverName = true ∨ peer.chainTrusted store = false ∨ 253 < serverName.length := by
  obtain ⟨hverify, hroots⟩ := build_ok hstore hbuild
  have haccepts : Ssl.accepts peer ⟨config.ctx, some serverName, none⟩ = peer.chainTrusted store := by
    simp only [Ssl.accepts, hverify, hroots, Bool.not_true, Bool.false_or, Option.all_none, Bool.and_true]
  constructor
  · intro h
    by_cases hlen : 253 < serverName.length
    · exact .inr (.inr hlen)
    cases ht : peer.chainTrusted store with
    | false => exact .inr (.inl rfl)
    | true =>
      refine .inl (h (promptWolfssl peer) (promptWolfssl_checks peer) ?_)
      exact promptWolfssl_reports config serverName peer hname (Nat.le_of_not_lt hlen) (haccepts.trans ht) path
  · intro h w hw hreports
    obtain ⟨ssl, log, hopen, hsucc⟩ := hreports.opened
    obtain ⟨hlen, rfl⟩ := openSession_ok hname hopen
    rcases h with h | h | h
    · exact h
    · rw [← haccepts, hw _ log hsucc] at h
      cases h
    · exact absurd h (Nat.not_lt.2 hlen)

/-- A builder with one root certificate. -/
def oneRoot : TlsClientConfigBuilder := ⟨none, some [⟨[48], .der⟩], none, none⟩

/-- The configuration built from it. -/
def oneRootConfig : TlsClientConfig := ⟨⟨"wolfSSLv23_client_method", [⟨[48], .der⟩], true, none⟩⟩

/-- A peer whose chain leads to any root, and whose certificate is for `evil` alone. -/
def evilPeer : Peer := ⟨fun _ => true, fun name => decide (name = [101, 118, 105, 108])⟩

theorem success_vouches_for_name_tokio :
    (∀ w : Wolfssl, w.Checks evilPeer → Reports w oneRootConfig [98, 97, 110, 107] (.connector .tokio) →
        evilPeer.validFor [98, 97, 110, 107] = true) ↔
      evilPeer.validFor [98, 97, 110, 107] = true ∨ evilPeer.chainTrusted [⟨[48], .der⟩] = false ∨
        253 < [98, 97, 110, 107].length :=
  success_vouches_for_name_iff (promptWolfssl evilPeer) oneRoot [⟨[48], .der⟩] oneRootConfig rfl rfl [98, 97, 110, 107]
    (by decide) evilPeer (.connector .tokio)

/-- **A session for `bank` succeeds with a peer certified for `evil`**, on every way to a session. -/
theorem other_name_accepted :
    oneRoot.build (promptWolfssl evilPeer) = .ok oneRootConfig ∧ (promptWolfssl evilPeer).Checks evilPeer ∧
      evilPeer.validFor [98, 97, 110, 107] = false ∧
      Reports (promptWolfssl evilPeer) oneRootConfig [98, 97, 110, 107] .tlsClient ∧
      Reports (promptWolfssl evilPeer) oneRootConfig [98, 97, 110, 107] .sessionWithIo ∧
      Reports (promptWolfssl evilPeer) oneRootConfig [98, 97, 110, 107] .sslWithIoCallbacks ∧
      Reports (promptWolfssl evilPeer) oneRootConfig [98, 97, 110, 107] (.connector .tokio) ∧
      Reports (promptWolfssl evilPeer) oneRootConfig [98, 97, 110, 107] (.connector .futuresIo) := by
  have hreports := promptWolfssl_reports oneRootConfig [98, 97, 110, 107] evilPeer
    (by decide) (by decide) rfl
  exact ⟨rfl, promptWolfssl_checks evilPeer, rfl, hreports _, hreports _, hreports _, hreports _, hreports _⟩

end Tls
end Wolf
