import Is2.Nconn.Transfer
import Is2.Srvr.NconnPool

/-!
# Upstream connections

The two connection classes, `nconn_tcp` and `nconn_tls`, as a server thread uses them towards an
upstream: setting up the socket, connecting, shaking hands, writing, cleaning up.  What the kernel
and OpenSSL answer is an input of each call.

* The mask a descriptor is registered with in the event loop is changed inside these calls; only the
  last registration counts.
* `sslVerify` and `validated` record what OpenSSL was told: the verify mode of `SSL_set_verify`, and
  the arguments of the `validate_server_certificate` call that passed.

`m_evr_loop` is set before the first of these calls is made, so the tests for it are left out.
-/

namespace Is2

/-! ## Registration masks -/

/-- `EVR_FILE_ATTR_MASK_*`. -/
inductive EvrFileAttr where
  | read
  | write
  | statusError
  | rdHup
  | hup
  | et
deriving DecidableEq, Repr

/-- The `EPOLL*` flags. -/
inductive EpollFlag where
  | epollIn
  | epollOut
  | epollErr
  | epollRdHup
  | epollEt
deriving DecidableEq, Repr

/-- One line of `get_epoll_attr`. -/
def EvrFileAttr.epollFlag : EvrFileAttr → EpollFlag
  | .read => .epollIn
  | .write => .epollOut
  | .statusError => .epollErr
  | .rdHup => .epollRdHup
  | .hup => .epollRdHup
  | .et => .epollEt

/-- `get_epoll_attr`. -/
def getEpollAttr (mask : Finset EvrFileAttr) : Finset EpollFlag :=
  mask.image EvrFileAttr.epollFlag

/-- With the epoll backend, readable events come exactly to descriptors registered for reading. -/
lemma epollIn_mem_getEpollAttr {mask : Finset EvrFileAttr} :
    EpollFlag.epollIn ∈ getEpollAttr mask ↔ EvrFileAttr.read ∈ mask := by
  rw [getEpollAttr, Finset.mem_image]
  constructor
  · rintro ⟨a, ha, he⟩
    cases a <;> simp_all [EvrFileAttr.epollFlag]
  · exact fun h => ⟨_, h, rfl⟩

/-- What `nconn_tcp::ncsetup` registers. -/
def setupMask : Finset EvrFileAttr := {.read, .rdHup, .et}

/-- What `nconn_tcp::ncconnect` registers, connected or still connecting. -/
def connectMask : Finset EvrFileAttr := {.read, .write, .statusError, .rdHup, .hup, .et}

/-- What `ncwrite` of both classes registers when the send would block. -/
def writeMask : Finset EvrFileAttr := {.write, .statusError, .rdHup, .hup, .et}

/-! ## Connections -/

/-- `TCP_STATE_*`. -/
inductive TcpState where
  | none
  | connecting
  | connected
deriving DecidableEq, Repr

/-- `TLS_STATE_*` of a client. -/
inductive TlsState where
  | none
  | connecting
  | tlsConnecting
  | tlsConnectingWantRead
  | tlsConnectingWantWrite
  | connected
deriving DecidableEq, Repr

/-- The options that decide what is verified: `m_tls_opt_verify`,
`m_tls_opt_verify_allow_self_signed`, `m_tls_opt_verify_no_host_check`, `m_tls_opt_hostname`. -/
structure TlsOpts where
  verify : Bool
  verifyAllowSelfSigned : Bool
  verifyNoHostCheck : Bool
  hostname : String
deriving DecidableEq, Repr

/-- The verify mode of an `SSL` object, and the callback it was set with. -/
inductive SslVerify where
  | off
  | peer
  | peerAllowSelfSigned
deriving DecidableEq, Repr

/-- What `nconn_tls::init` hands to `SSL_set_verify`. -/
def TlsOpts.sslVerify (o : TlsOpts) : SslVerify :=
  if o.verify then
    if o.verifyAllowSelfSigned then .peerAllowSelfSigned else .peer
  else .off

/-- `nconn_tcp` or `nconn_tls`, by `scheme`.  `NC_STATE_DONE` is left at once, in the state machine,
and the states of a listening connection do not occur. -/
structure UpsConn where
  scheme : Scheme
  state : NcState
  /-- `m_conn_status` is `CONN_STATUS_CANCELLED`. -/
  cancelled : Bool
  data : Option ℕ
  mask : Finset EvrFileAttr
  tcpState : TcpState
  tlsState : TlsState
  opts : TlsOpts
  sslVerify : SslVerify
  validated : Option (String × Bool)
deriving DecidableEq

namespace UpsConn

/-- A new connection. -/
def new (scheme : Scheme) : UpsConn where
  scheme := scheme
  state := .free
  cancelled := false
  data := none
  mask := ∅
  tcpState := .none
  tlsState := .none
  opts := ⟨false, false, false, ""⟩
  sslVerify := .off
  validated := none

/-- `nconn_pool::s_create_new_conn`. -/
def create : Scheme → Option UpsConn
  | .none => none
  | scheme => some (new scheme)

/-- `nconn::nc_cleanup`. -/
def ncCleanup (n : UpsConn) : UpsConn :=
  { n with
    state := .free
    cancelled := true
    data := none
    mask := ∅
    tcpState := .none
    tlsState := .none
    sslVerify := .off
    validated := none }

/-- The connections of a proxy pool. -/
def cls : NconnClass UpsConn := ⟨create, ncCleanup⟩

/-! ## Setting up -/

/-- What the kernel and OpenSSL answer during `ncsetup`. -/
structure SetupIn where
  sockOk : Bool
  addFdOk : Bool
  initOk : Bool
deriving DecidableEq, Repr

/-- `nconn_tcp::ncsetup`, and whether it returned `NC_STATUS_OK`. -/
def tcpSetup (n : UpsConn) (i : SetupIn) : UpsConn × Bool :=
  if i.sockOk ∧ i.addFdOk then ({ n with mask := setupMask }, true) else (n, false)

/-- `ncsetup`, and whether it returned `NC_STATUS_OK`. -/
def ncsetup (n : UpsConn) (i : SetupIn) : UpsConn × Bool :=
  match n.scheme with
  | .tls =>
      match n.tcpSetup i with
      | (n, true) =>
          if i.initOk then
            ({ n with sslVerify := n.opts.sslVerify, tlsState := .connecting }, true)
          else (n, false)
      | (n, false) => (n, false)
  | _ => n.tcpSetup i

/-! ## Connecting -/

/-- What `connect` answers; `modFdOk` whether the registration that follows succeeds. -/
inductive TcpConnect where
  | connected (modFdOk : Bool)
  | inProgress (modFdOk : Bool)
  | failed
deriving DecidableEq, Repr

/-- What `SSL_connect` answers. -/
inductive SslConnect where
  | connected
  | wantRead
  | wantWrite
  | failed
deriving DecidableEq, Repr

/-- What `ncconnect` is answered; `certOk` is the verdict of `validate_server_certificate`. -/
structure ConnectIn where
  tcp : TcpConnect
  ssl : SslConnect
  certOk : Bool
deriving DecidableEq, Repr

/-- `nconn_tcp::ncconnect`. -/
def tcpConnect (n : UpsConn) : TcpConnect → UpsConn × NcStatus
  | .failed => ({ n with tcpState := .connecting }, .error)
  | .inProgress false => ({ n with tcpState := .connecting }, .error)
  | .inProgress true => ({ n with tcpState := .connecting, mask := connectMask }, .ok)
  | .connected false => ({ n with tcpState := .connected }, .error)
  | .connected true => ({ n with tcpState := .connected, mask := connectMask }, .ok)

/-- `nconn_tls::ncconnect` in `TLS_STATE_CONNECTED`. -/
def tlsValidate (n : UpsConn) (certOk : Bool) : UpsConn × NcStatus :=
  if n.opts.verify && !n.opts.verifyNoHostCheck then
    if certOk then
      ({ n with validated := some (n.opts.hostname, !n.opts.verifyAllowSelfSigned) }, .ok)
    else (n, .error)
  else (n, .ok)

/-- `nconn_tls::ncconnect` in `TLS_STATE_TLS_CONNECTING*`. -/
def tlsConnect (n : UpsConn) (ssl : SslConnect) (certOk : Bool) : UpsConn × NcStatus :=
  match ssl with
  | .failed => ({ n with tlsState := .tlsConnecting }, .error)
  | .wantRead => ({ n with tlsState := .tlsConnectingWantRead }, .ok)
  | .wantWrite => ({ n with tlsState := .tlsConnectingWantWrite }, .ok)
  | .connected => { n with tlsState := .connected }.tlsValidate certOk

/-- `ncconnect`. -/
def ncconnect (n : UpsConn) (i : ConnectIn) : UpsConn × NcStatus :=
  match n.scheme with
  | .tls =>
      match n.tlsState with
      | .connecting =>
          match n.tcpConnect i.tcp with
          | (n, .error) => (n, .error)
          | (n, _) =>
              if n.tcpState = .connecting then (n, .ok)
              else { n with tlsState := .tlsConnecting }.tlsConnect i.ssl i.certOk
      | .connected => n.tlsValidate i.certOk
      | .none => (n, .error)
      | _ => n.tlsConnect i.ssl i.certOk
  | _ => n.tcpConnect i.tcp

/-- `is_connecting`. -/
def isConnecting (n : UpsConn) : Bool :=
  match n.scheme with
  | .tls =>
      match n.tlsState with
      | .none => false
      | .connected => false
      | _ => true
  | _ => n.tcpState == .connecting

/-! ## Writing -/

/-- What `send` or `SSL_write` answers: some bytes were taken; it would block (`EAGAIN`,
`SSL_ERROR_WANT_WRITE`), with whether the registration that follows succeeds; `SSL_ERROR_WANT_READ`;
anything else. -/
inductive Send where
  | sent (k : ℕ)
  | wouldBlock (modFdOk : Bool)
  | wantRead
  | failed
deriving DecidableEq, Repr

/-- `ncwrite`. -/
def ncwrite (n : UpsConn) : Send → UpsConn × SockWrite
  | .sent k => (n, .accept k)
  | .wouldBlock true => ({ n with mask := writeMask }, .status .again)
  | .wouldBlock false => (n, .status .error)
  | .wantRead => (n, .status (if n.scheme = .tls then .again else .error))
  | .failed => (n, .status .error)

/-- The options `subr_start` sets on a new TLS connection. -/
def setTlsOpts (n : UpsConn) (o : TlsOpts) : UpsConn :=
  if n.scheme = .tls then { n with opts := o } else n

end UpsConn

end Is2
