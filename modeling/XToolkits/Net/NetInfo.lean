import XToolkits.Lib.CInt

set_option autoImplicit false

/-! # A manual network configuration

`set_network_manual` compares the configuration that is wanted with the current one and calls the
setters for what is different. Setting the address or the mask clears the gateway, so the gateway is
set behind both. Where the gateways themselves are compared, only as many bytes are as the new one
has. `setNetworkManual_iff` says for which pairs of configurations the system ends up as wanted. -/

namespace XToolkits.Net

/-! ## The configuration -/

/-- `XLIB_NETWORKINFO`, as far as it is compared and set. -/
structure NetworkInfo where
  phyaddrEnable : Nat
  szIP : CStr
  szSubMsk : CStr
  szGateWay : CStr
  szPhyAddr : CStr
  szFirstDns : CStr
  szSecDns : CStr
  deriving DecidableEq, Repr

/-- The configuration of the system. -/
structure NetConfig where
  ip : CStr
  mask : CStr
  mac : CStr
  gateway : CStr
  firstDns : CStr
  secDns : CStr
  deriving DecidableEq, Repr

/-- The system has the configuration `info`. -/
def NetworkInfo.config (info : NetworkInfo) : NetConfig :=
  ⟨info.szIP, info.szSubMsk, info.szPhyAddr, info.szGateWay, info.szFirstDns, info.szSecDns⟩

/-- What the calls of `set_gateway` return: `get_gateway`, the command that deletes the gateway and
    the one that adds it. -/
structure GatewayReturns where
  getGateway : Int
  routeDel : Int
  routeAdd : Int

/-- What the calls of `set_network_manual` return, in their order. -/
structure Returns where
  setLocalip : Int
  gatewayBehindIp : GatewayReturns
  setNetmask : Int
  gatewayBehindMask : GatewayReturns
  setLocalmac : Int
  gateway : GatewayReturns
  saveDnsInfo : Int
  fopen : Int
  saveDnsInfoAgain : Int

/-! ## The setters

A result `.error c` is a negative return value, with the configuration `c` left behind. -/

/-- `set_localip`. -/
def setLocalip (ret : Int) (szNetIP : CStr) (c : NetConfig) : Except NetConfig NetConfig :=
  if ret < 0 then .error c else .ok { c with ip := szNetIP, gateway := [] }

/-- `set_netmask`. -/
def setNetmask (ret : Int) (szNetMask : CStr) (c : NetConfig) : Except NetConfig NetConfig :=
  if ret < 0 then .error c else .ok { c with mask := szNetMask, gateway := [] }

/-- `set_localmac`. -/
def setLocalmac (ret : Int) (szNetMac : CStr) (c : NetConfig) : Except NetConfig NetConfig :=
  if ret < 0 then .error c else .ok { c with mac := szNetMac }

/-- `set_gateway`. -/
def setGateway (ret : GatewayReturns) (szGateWay : CStr) (c : NetConfig) :
    Except NetConfig NetConfig :=
  if ret.getGateway < 0 then .error c
  else if ret.routeDel < 0 then .error c
  else if ret.routeAdd < 0 then .error c
  else .ok { c with gateway := szGateWay }

/-- `save_dns_info`, which `set_dnsaddress` calls. -/
def saveDnsInfo (ret : Int) (pPrimary pSecond : CStr) (c : NetConfig) : Except NetConfig NetConfig :=
  if ret < 0 then .error c else .ok { c with firstDns := pPrimary, secDns := pSecond }

/-- `save_net_info`: what `save_dns_info` returns is not looked at. -/
def saveNetInfo (fopen ret : Int) (new : NetworkInfo) (c : NetConfig) :
    Except NetConfig NetConfig :=
  if fopen < 0 then .error c
  else match saveDnsInfo ret new.szFirstDns new.szSecDns c with
    | .ok c => .ok c
    | .error c => .ok c

/-! ## The parts of `set_network_manual` -/

/-- The address, and the gateway behind it. -/
def applyIp (ret : Returns) (new cur : NetworkInfo) (c : NetConfig) : Except NetConfig NetConfig := do
  if new.szIP ≠ cur.szIP then
    let c ← setLocalip ret.setLocalip new.szIP c
    setGateway ret.gatewayBehindIp new.szGateWay c
  else .ok c

/-- The mask, and the gateway behind it. -/
def applyMask (ret : Returns) (new cur : NetworkInfo) (c : NetConfig) :
    Except NetConfig NetConfig := do
  if new.szSubMsk ≠ cur.szSubMsk then
    let c ← setNetmask ret.setNetmask new.szSubMsk c
    setGateway ret.gatewayBehindMask new.szGateWay c
  else .ok c

/-- The hardware address. -/
def applyMac (ret : Returns) (new cur : NetworkInfo) (c : NetConfig) : Except NetConfig NetConfig :=
  if new.phyaddrEnable ≠ 0 ∧ new.szPhyAddr ≠ cur.szPhyAddr then
    setLocalmac ret.setLocalmac new.szPhyAddr c
  else .ok c

/-- The gateway. -/
def applyGateway (ret : Returns) (new cur : NetworkInfo) (c : NetConfig) :
    Except NetConfig NetConfig :=
  if ¬ StrncmpEq new.szGateWay cur.szGateWay new.szGateWay.length then
    setGateway ret.gateway new.szGateWay c
  else .ok c

/-- The servers. -/
def applyDns (ret : Returns) (new cur : NetworkInfo) (c : NetConfig) : Except NetConfig NetConfig :=
  if new.szFirstDns ≠ cur.szFirstDns ∨ new.szSecDns ≠ cur.szSecDns then
    saveDnsInfo ret.saveDnsInfo new.szFirstDns new.szSecDns c
  else .ok c

/-- `set_network_manual`: `.ok` is the return value `0`. -/
def setNetworkManual (ret : Returns) (new cur : NetworkInfo) (c : NetConfig) :
    Except NetConfig NetConfig := do
  let c ← applyIp ret new cur c
  let c ← applyMask ret new cur c
  let c ← applyMac ret new cur c
  let c ← applyGateway ret new cur c
  let c ← applyDns ret new cur c
  saveNetInfo ret.fopen ret.saveDnsInfoAgain new c

/-- Whatever the calls return, when `set_network_manual` returns `0` the system has the
    configuration that is wanted; the hardware address counts when it is enabled. -/
def AppliesRequested (new cur : NetworkInfo) : Prop :=
  ∀ ret c, setNetworkManual ret new cur cur.config = .ok c →
    c = { new.config with mac := c.mac } ∧ (new.phyaddrEnable ≠ 0 → c.mac = new.szPhyAddr)

/-! ## What is set -/

variable {ret : Returns} {new cur : NetworkInfo} {c c' : NetConfig}

theorem bind_eq_ok {α β ε : Type} {x : Except ε α} {f : α → Except ε β} {b : β}
    (h : x >>= f = .ok b) : ∃ a, x = .ok a ∧ f a = .ok b := by
  cases x with
  | error e => cases h
  | ok a => exact ⟨a, rfl, h⟩

theorem setGateway_eq_ok {r : GatewayReturns} {gw : CStr} (h : setGateway r gw c = .ok c') :
    c' = { c with gateway := gw } := by
  rw [setGateway] at h
  split_ifs at h
  cases h
  rfl

theorem applyIp_eq_ok (hc : c.ip = cur.szIP) (h : applyIp ret new cur c = .ok c') :
    c' = { c with
      ip := new.szIP
      gateway := if new.szIP = cur.szIP then c.gateway else new.szGateWay } := by
  rw [applyIp] at h
  split at h
  · case isTrue hip =>
      obtain ⟨d, hset, hgw⟩ := bind_eq_ok h
      rw [setLocalip] at hset
      split_ifs at hset
      cases hset
      rw [if_neg hip, setGateway_eq_ok hgw]
  · case isFalse hip =>
      cases h
      rw [if_pos (not_not.1 hip), not_not.1 hip, ← hc]

theorem applyMask_eq_ok (hc : c.mask = cur.szSubMsk) (h : applyMask ret new cur c = .ok c') :
    c' = { c with
      mask := new.szSubMsk
      gateway := if new.szSubMsk = cur.szSubMsk then c.gateway else new.szGateWay } := by
  rw [applyMask] at h
  split at h
  · case isTrue hmask =>
      obtain ⟨d, hset, hgw⟩ := bind_eq_ok h
      rw [setNetmask] at hset
      split_ifs at hset
      cases hset
      rw [if_neg hmask, setGateway_eq_ok hgw]
  · case isFalse hmask =>
      cases h
      rw [if_pos (not_not.1 hmask), not_not.1 hmask, ← hc]

theorem applyMac_eq_ok (hc : c.mac = cur.szPhyAddr) (h : applyMac ret new cur c = .ok c') :
    c' = { c with mac := if new.phyaddrEnable = 0 then c.mac else new.szPhyAddr } := by
  rw [applyMac] at h
  split at h
  · case isTrue hmac =>
      rw [setLocalmac] at h
      split_ifs at h
      cases h
      rw [if_neg hmac.1]
  · case isFalse hmac =>
      cases h
      split
      · rfl
      · case isFalse henabled =>
          rw [← not_not.1 fun hne => hmac ⟨henabled, hne⟩] at hc
          rw [← hc]

theorem applyGateway_eq_ok (h : applyGateway ret new cur c = .ok c') :
    c' = { c with
      gateway := if new.szGateWay <+: cur.szGateWay then c.gateway else new.szGateWay } := by
  rw [applyGateway] at h
  split at h
  · case isTrue hgw => rw [if_neg (mt (strncmpEq_length_iff _ _).2 hgw), setGateway_eq_ok h]
  · case isFalse hgw =>
      cases h
      rw [if_pos ((strncmpEq_length_iff _ _).1 (not_not.1 hgw))]

theorem saveDnsInfo_eq_ok {r : Int} {pPrimary pSecond : CStr}
    (h : saveDnsInfo r pPrimary pSecond c = .ok c') :
    c' = { c with firstDns := pPrimary, secDns := pSecond } := by
  rw [saveDnsInfo] at h
  split_ifs at h
  cases h
  rfl

theorem applyDns_eq_ok (hfirst : c.firstDns = cur.szFirstDns) (hsec : c.secDns = cur.szSecDns)
    (h : applyDns ret new cur c = .ok c') :
    c' = { c with firstDns := new.szFirstDns, secDns := new.szSecDns } := by
  rw [applyDns] at h
  split at h
  · exact saveDnsInfo_eq_ok h
  · case isFalse hdns =>
      cases h
      obtain ⟨heq, heq'⟩ := not_or.1 hdns
      rw [not_not.1 heq, not_not.1 heq', ← hfirst, ← hsec]

/-- The servers are written once more. -/
theorem saveNetInfo_eq_ok {fopen r : Int} (hfirst : c.firstDns = new.szFirstDns)
    (hsec : c.secDns = new.szSecDns) (h : saveNetInfo fopen r new c = .ok c') : c' = c := by
  rw [saveNetInfo] at h
  split at h
  · cases h
  · cases hsave : saveDnsInfo r new.szFirstDns new.szSecDns c with
    | ok d =>
        rw [hsave] at h
        cases h
        rw [saveDnsInfo_eq_ok hsave, ← hfirst, ← hsec]
    | error d =>
        rw [saveDnsInfo] at hsave
        split_ifs at hsave
        cases hsave
        rw [saveDnsInfo, if_pos ‹r < 0›] at h
        cases h
        rfl

/-! ## The configuration in the end -/

/-- The gateway is not set: neither the address nor the mask is different, and the new gateway is the
    beginning of the current one. -/
def GatewayKept (new cur : NetworkInfo) : Prop :=
  new.szIP = cur.szIP ∧ new.szSubMsk = cur.szSubMsk ∧ new.szGateWay <+: cur.szGateWay

instance (new cur : NetworkInfo) : Decidable (GatewayKept new cur) :=
  inferInstanceAs (Decidable (_ ∧ _ ∧ _))

/-- **What the system has when `set_network_manual` returns `0`.** -/
theorem setNetworkManual_eq_ok (h : setNetworkManual ret new cur cur.config = .ok c) :
    c = { new.config with
      mac := if new.phyaddrEnable = 0 then cur.szPhyAddr else new.szPhyAddr
      gateway := if GatewayKept new cur then cur.szGateWay else new.szGateWay } := by
  obtain ⟨c1, hip, h⟩ := bind_eq_ok h
  obtain ⟨c2, hmask, h⟩ := bind_eq_ok h
  obtain ⟨c3, hmac, h⟩ := bind_eq_ok h
  obtain ⟨c4, hgateway, h⟩ := bind_eq_ok h
  obtain ⟨c5, hdns, hsave⟩ := bind_eq_ok h
  obtain rfl := applyIp_eq_ok rfl hip
  obtain rfl := applyMask_eq_ok rfl hmask
  obtain rfl := applyMac_eq_ok rfl hmac
  obtain rfl := applyGateway_eq_ok hgateway
  obtain rfl := applyDns_eq_ok rfl rfl hdns
  obtain rfl := saveNetInfo_eq_ok rfl rfl hsave
  have hkept : (if new.szGateWay <+: cur.szGateWay then
        if new.szSubMsk = cur.szSubMsk then
          if new.szIP = cur.szIP then cur.szGateWay else new.szGateWay
        else new.szGateWay
      else new.szGateWay) =
      if GatewayKept new cur then cur.szGateWay else new.szGateWay := by
    rw [← ite_and, ← ite_and]
    exact if_congr ⟨fun ⟨⟨hgw, hmask⟩, hip⟩ => ⟨hip, hmask, hgw⟩,
      fun ⟨hip, hmask, hgw⟩ => ⟨⟨hgw, hmask⟩, hip⟩⟩ rfl rfl
  rw [← hkept]
  rfl

/-- No call fails. -/
def allSucceed : Returns := ⟨0, ⟨0, 0, 0⟩, 0, ⟨0, 0, 0⟩, 0, ⟨0, 0, 0⟩, 0, 0, 0⟩

theorem exists_bind_eq_ok {α β ε : Type} {x : Except ε α} {f : α → Except ε β}
    (hx : ∃ a, x = .ok a) (hf : ∀ a, ∃ b, f a = .ok b) : ∃ b, x >>= f = .ok b := by
  obtain ⟨a, rfl⟩ := hx
  exact hf a

theorem setNetworkManual_allSucceed (new cur : NetworkInfo) (c : NetConfig) :
    ∃ c', setNetworkManual allSucceed new cur c = .ok c' := by
  refine exists_bind_eq_ok ?ip fun c => exists_bind_eq_ok ?mask fun c => exists_bind_eq_ok ?mac
    fun c => exists_bind_eq_ok ?gateway fun c => exists_bind_eq_ok ?dns fun c => ⟨_, rfl⟩
  case ip =>
    rw [applyIp]
    split <;> exact ⟨_, rfl⟩
  case mask =>
    rw [applyMask]
    split <;> exact ⟨_, rfl⟩
  case mac =>
    rw [applyMac]
    split <;> exact ⟨_, rfl⟩
  case gateway =>
    rw [applyGateway]
    split <;> exact ⟨_, rfl⟩
  case dns =>
    rw [applyDns]
    split <;> exact ⟨_, rfl⟩

/-- **When the configuration that is wanted is the one the system gets.** For every pair of
    configurations and everything that the calls can return: the system has what is wanted when
    `set_network_manual` returns `0` exactly when not: address and mask stay and the new gateway is
    the beginning of the current one, without being the same. -/
theorem setNetworkManual_iff (new cur : NetworkInfo) :
    AppliesRequested new cur ↔
      ¬ (new.szIP = cur.szIP ∧ new.szSubMsk = cur.szSubMsk ∧ new.szGateWay <+: cur.szGateWay ∧
        new.szGateWay ≠ cur.szGateWay) := by
  constructor
  · rintro h ⟨hip, hmask, hgw, hne⟩
    obtain ⟨c, hc⟩ := setNetworkManual_allSucceed new cur cur.config
    have hwanted : c.gateway = new.szGateWay := congrArg NetConfig.gateway (h allSucceed c hc).1
    have hkept : c.gateway = cur.szGateWay := by
      rw [setNetworkManual_eq_ok hc]
      exact if_pos ⟨hip, hmask, hgw⟩
    exact hne (hwanted.symm.trans hkept)
  · intro h ret c hc
    have hgw : (if GatewayKept new cur then cur.szGateWay else new.szGateWay) = new.szGateWay := by
      split
      · case isTrue hkept =>
          by_contra hne
          exact h ⟨hkept.1, hkept.2.1, hkept.2.2, fun heq => hne heq.symm⟩
      · rfl
    rw [setNetworkManual_eq_ok hc, hgw]
    exact ⟨rfl, fun henabled => if_neg henabled⟩

/-- With the current gateway `192.168.1.10` the new one `192.168.1.1` is not set. -/
theorem setNetworkManual_prefix :
    ¬ AppliesRequested
      ⟨0, cstr "192.168.1.7", cstr "255.255.255.0", cstr "192.168.1.1", [], [], []⟩
      ⟨0, cstr "192.168.1.7", cstr "255.255.255.0", cstr "192.168.1.10", [], [], []⟩ := by
  intro h
  obtain ⟨c, hc⟩ := setNetworkManual_allSucceed _ _ _
  have hwanted := congrArg NetConfig.gateway (h allSucceed c hc).1
  rw [setNetworkManual_eq_ok hc] at hwanted
  exact absurd hwanted (by decide)

end XToolkits.Net
