import Is2.Ext.Hostcheck
import Is2.Nconn.Upstream
import Is2.Srvr.SubrRqst

/-!
# The host a TLS connection is with

`nconn_tls::ncconnect` asks `validate_server_certificate` behind the handshake.  The names of the
certificate are compared with the host of the options, one after the other.

The names are `std::string`s that may hold NULs; what is compared is their `c_str()`.  From OpenSSL
1.1 on `tls_x509_get_ids` finds no names at all, and no certificate is accepted for a host.

`certificate_names_host` says what is accepted, and `connected_names_host` that a connection that
checks the host is not connected under any other certificate.
-/

namespace Is2

namespace Hostcheck

/-- What `tls_x509_get_ids` reads from a certificate: the `dNSName` entries of its subject
alternative names, and the common names of its subject. -/
structure X509 where
  dnsNames : List Bytes
  commonNames : List Bytes

/-- `tls_x509_get_ids`, for an OpenSSL before 1.1 or a later one -/
def tlsX509GetIds (before11 : Bool) (x509 : Option X509) : Option (List Bytes) :=
  match x509 with
  | none => none
  | some x509 =>
      if before11 then
        let ids := x509.dnsNames.filter (· ≠ []) ++ x509.commonNames.filter (· ≠ [])
        if ids = [] then none else some ids
      else none

/-- `validate_server_certificate_hostname`; true is `STATUS_OK`. -/
def validateHostname (before11 : Bool) (cert : X509) (host : Bytes) : Bool :=
  match tlsX509GetIds before11 (some cert) with
  | none => false
  | some ids => ids.any fun id => certHostcheck (SubrRqst.cStr id) host

/-- `validate_server_certificate`; there may be no certificate, and no host to check. -/
def validateServerCertificate (before11 : Bool) (cert : Option X509) (host : Option Bytes) : Bool :=
  match cert, host with
  | none, _ => false
  | some cert, some host => validateHostname before11 cert host
  | some _, none => true

/-! ## What is accepted -/

lemma nul_notMem_cStr (s : Bytes) : 0 ∉ SubrRqst.cStr s := by
  intro h
  have := List.mem_takeWhile_imp h
  simp at this

lemma mem_tlsX509GetIds {before11 : Bool} {x509 : X509} {p : Bytes → Bool} (hp : p [] = false) :
    (match tlsX509GetIds before11 (some x509) with
      | none => false
      | some ids => ids.any p) = true ↔
      before11 = true ∧ ∃ id ∈ x509.dnsNames ++ x509.commonNames, p id = true := by
  have hids : (∃ id ∈ x509.dnsNames.filter (· ≠ []) ++ x509.commonNames.filter (· ≠ []),
      p id = true) ↔ ∃ id ∈ x509.dnsNames ++ x509.commonNames, p id = true := by
    rw [← List.filter_append]
    constructor
    · rintro ⟨id, hmem, hid⟩
      exact ⟨id, List.mem_of_mem_filter hmem, hid⟩
    · rintro ⟨id, hmem, hid⟩
      refine ⟨id, List.mem_filter.mpr ⟨hmem, ?_⟩, hid⟩
      rw [decide_eq_true_eq]
      rintro rfl
      rw [hp] at hid
      exact absurd hid (by simp)
  rw [← hids, tlsX509GetIds]
  cases before11 with
  | false => simp
  | true =>
      by_cases hnil : x509.dnsNames.filter (· ≠ []) ++ x509.commonNames.filter (· ≠ []) = []
      · simp only [hnil, if_true]
        simp
      · simp only [if_true, hnil, if_false, List.any_eq_true, true_and]

lemma validateServerCertificate_iff (before11 : Bool) (x509 : X509) (host : Bytes) :
    validateServerCertificate before11 (some x509) (some (SubrRqst.cStr host)) = true ↔
      before11 = true ∧ ∃ id ∈ x509.dnsNames ++ x509.commonNames,
        IsFor (SubrRqst.cStr id) (SubrRqst.cStr host) := by
  have hname := fun id : Bytes => certHostcheck_iff (nul_notMem_cStr id) (nul_notMem_cStr host)
  have hnil : certHostcheck (SubrRqst.cStr []) (SubrRqst.cStr host) = false := by
    simp [certHostcheck, SubrRqst.cStr]
  rw [validateServerCertificate, validateHostname,
    mem_tlsX509GetIds (p := fun id => certHostcheck (SubrRqst.cStr id) (SubrRqst.cStr host)) hnil]
  simp only [hname]

/-- **What a certificate is accepted for.**  With a host to check, a certificate is accepted if an
OpenSSL before 1.1 reads it and one of its names, up to its first NUL, is for the host. -/
theorem certificate_names_host (before11 : Bool) (cert : Option X509) (host : Bytes) :
    validateServerCertificate before11 cert (some (SubrRqst.cStr host)) = true ↔
      before11 = true ∧ ∃ x509, cert = some x509 ∧
        ∃ id ∈ x509.dnsNames ++ x509.commonNames,
          IsFor (SubrRqst.cStr id) (SubrRqst.cStr host) := by
  cases cert with
  | none => simp [validateServerCertificate]
  | some x509 =>
      rw [validateServerCertificate_iff]
      simp only [Option.some.injEq, exists_eq_left']

/-! ## The connection -/

/-- `m_tls_opt_hostname.c_str()` -/
def hostOf (n : UpsConn) : Bytes := SubrRqst.cStr n.opts.hostname.toUTF8.data.toList

/-- A connection that checks the host gets through `TLS_STATE_CONNECTED` with a certificate that is
accepted only. -/
lemma certOk_of_tlsValidate {n : UpsConn} {certOk : Bool} (hverify : n.opts.verify = true)
    (hcheck : n.opts.verifyNoHostCheck = false) (h : (n.tlsValidate certOk).2 ≠ .error) :
    certOk = true := by
  rw [UpsConn.tlsValidate, hverify, hcheck, if_pos (by decide)] at h
  by_contra hcert
  rw [if_neg hcert] at h
  exact h rfl

lemma certOk_of_tlsConnect {n : UpsConn} {ssl : UpsConn.SslConnect} {certOk : Bool}
    (hs : n.scheme = .tls) (hverify : n.opts.verify = true)
    (hcheck : n.opts.verifyNoHostCheck = false) (h : (n.tlsConnect ssl certOk).2 ≠ .error)
    (hc : (n.tlsConnect ssl certOk).1.isConnecting = false) : certOk = true := by
  cases ssl with
  | failed => exact absurd rfl h
  | wantRead => exact absurd hc (by simp [UpsConn.tlsConnect, UpsConn.isConnecting, hs])
  | wantWrite => exact absurd hc (by simp [UpsConn.tlsConnect, UpsConn.isConnecting, hs])
  | connected =>
      exact certOk_of_tlsValidate (n := { n with tlsState := .connected }) hverify hcheck h

lemma certOk_of_ncconnect {n : UpsConn} {i : UpsConn.ConnectIn} (hs : n.scheme = .tls)
    (hverify : n.opts.verify = true) (hcheck : n.opts.verifyNoHostCheck = false)
    (h : (n.ncconnect i).2 ≠ .error) (hc : (n.ncconnect i).1.isConnecting = false) :
    i.certOk = true := by
  have hopts : (n.tcpConnect i.tcp).1.opts = n.opts ∧ (n.tcpConnect i.tcp).1.scheme = n.scheme ∧
      (n.tcpConnect i.tcp).1.tlsState = n.tlsState := by
    unfold UpsConn.tcpConnect
    split <;> exact ⟨rfl, rfl, rfl⟩
  unfold UpsConn.ncconnect at h hc
  simp only [hs] at h hc
  cases hst : n.tlsState with
  | none =>
      simp only [hst] at h
      exact absurd rfl h
  | connecting =>
      simp only [hst] at h hc
      split at h
      case h_1 m hm => exact absurd rfl h
      case h_2 m st hne hm =>
        rw [hm] at hopts
        obtain ⟨hopts, hscheme, htls⟩ := hopts
        dsimp only at hopts hscheme htls
        simp only [hm] at hc
        split_ifs at h hc with htcp
        · simp [UpsConn.isConnecting, hscheme.trans hs, htls.trans hst] at hc
        · exact certOk_of_tlsConnect (hscheme.trans hs) (by rw [← hopts] at hverify; exact hverify)
            (by rw [← hopts] at hcheck; exact hcheck) h hc
  | tlsConnecting =>
      simp only [hst] at h hc
      exact certOk_of_tlsConnect hs hverify hcheck h hc
  | tlsConnectingWantRead =>
      simp only [hst] at h hc
      exact certOk_of_tlsConnect hs hverify hcheck h hc
  | tlsConnectingWantWrite =>
      simp only [hst] at h hc
      exact certOk_of_tlsConnect hs hverify hcheck h hc
  | connected =>
      simp only [hst] at h hc
      exact certOk_of_tlsValidate hverify hcheck h

/-- **No other host.**  A TLS connection that checks its host and is no longer connecting has a
certificate with a name that is for the host; and it has been opened with an OpenSSL before 1.1. -/
theorem connected_names_host {n : UpsConn} {i : UpsConn.ConnectIn} {before11 : Bool}
    {cert : Option X509} (hs : n.scheme = .tls) (hverify : n.opts.verify = true)
    (hcheck : n.opts.verifyNoHostCheck = false)
    (hcert : i.certOk = validateServerCertificate before11 cert (some (hostOf n)))
    (h : (n.ncconnect i).2 ≠ .error) (hc : (n.ncconnect i).1.isConnecting = false) :
    before11 = true ∧ ∃ x509, cert = some x509 ∧
      ∃ id ∈ x509.dnsNames ++ x509.commonNames, IsFor (SubrRqst.cStr id) (hostOf n) := by
  rw [certOk_of_ncconnect hs hverify hcheck h hc] at hcert
  cases cert with
  | none => simp [validateServerCertificate] at hcert
  | some x509 =>
      obtain ⟨hbefore, hid⟩ := (validateServerCertificate_iff before11 x509 _).mp hcert.symm
      exact ⟨hbefore, x509, rfl, hid⟩

/-- A connection in its handshake, and a certificate with a wildcard. -/
def handshake : UpsConn :=
  { UpsConn.new .tls with
    tlsState := .tlsConnecting
    opts := ⟨true, false, false, "www.test.com"⟩ }

def wildcardCert : X509 := ⟨[ascii "*.Test.com"], [ascii "test"]⟩

theorem connected_names_host_wildcard :
    ∃ id ∈ [ascii "*.Test.com", ascii "test"], IsFor (SubrRqst.cStr id) (hostOf handshake) := by
  have hcert : true = validateServerCertificate true (some wildcardCert)
      (some (hostOf handshake)) := by decide +kernel
  obtain ⟨-, x509, hx509, id, hid, hfor⟩ :=
    connected_names_host (n := handshake) (i := ⟨.failed, .connected, true⟩)
      rfl rfl rfl hcert (by decide +kernel) (by decide +kernel)
  obtain rfl := Option.some.inj hx509
  exact ⟨id, hid, hfor⟩

/-- **A NUL inside a name.**  The name is cut there, so this certificate is accepted. -/
example : validateServerCertificate true
    (some ⟨[ascii "www.test.com" ++ 0 :: ascii ".other.org"], []⟩)
    (some (hostOf handshake)) = true := by decide +kernel

end Hostcheck

end Is2
