import XToolkits.Lib.CInt

set_option autoImplicit false

/-! # The arguments of a route

`inet_setroute` of `xlib_net` reads a list of options and values and hands a route to the kernel.
The chain of its first two options ends in an `else` that returns, so the `if`s behind it, for
`netmask`, `gw`, `gateway`, `device`, `dev` and `mtu`, are not reached. `readRoute` is what the
options are to mean, with the settings of these `if`s. `inetSetroute_iff` says for which lists the
function does that. -/

namespace XToolkits.Net

/-! ## The route -/

/-- A `struct sockaddr_in` as far as it is set. -/
structure SockAddrIn where
  sinFamily : Nat := 0
  sAddr : Nat := 0
  deriving DecidableEq, Repr

/-- The bits of `rt_flags` that are set here: `RTF_UP`, `RTF_GATEWAY`, `RTF_HOST` and `RTF_MTU`. -/
structure RtFlags where
  up : Bool := false
  gateway : Bool := false
  host : Bool := false
  mtu : Bool := false
  deriving DecidableEq, Repr

/-- `struct rtentry`, as far as it is set; `rt_dev` is `NULL` or points to a string. -/
structure RtEntry where
  rtDst : SockAddrIn := {}
  rtGateway : SockAddrIn := {}
  rtGenmask : SockAddrIn := {}
  rtFlags : RtFlags := {}
  rtDev : Option CStr := none
  rtMtu : Int := 0
  deriving DecidableEq, Repr

/-- The request of the `ioctl`. -/
inductive Request where
  | siocAddRt
  | siocDelRt
  deriving DecidableEq, Repr

/-- The functions of the system that are called: `inet_addr` and `atoi`, and what `socket` and
    `ioctl` return. -/
structure System where
  inetAddr : CStr → Nat
  atoi : CStr → Int
  socket : Int
  ioctl : Request → RtEntry → Int

/-- `AF_INET`. -/
def afInet : Nat := 2

/-- `RTACTION_DEL`. -/
def rtactionDel : Int := 2

/-- The address of a string. -/
def System.addr (sys : System) (value : CStr) : SockAddrIn := ⟨afInet, sys.inetAddr value⟩

/-! ## The function -/

/-- `sizeof(target)`. -/
def targetSize : Nat := 128

/-- The loop, from `args` on. The outer `none` is an access out of bounds: the value is `NULL`, or
    `strcpy` writes behind `target`. The inner `none` is the `return -1`. -/
def parseArgs (sys : System) : List CStr → RtEntry → Option (Option RtEntry)
  | [], route => some (some route)
  | opt :: args, route =>
      if opt = cstr "-net" then
        match args with
        | [] => none
        | target :: args =>
            if target.length + 1 ≤ targetSize then
              parseArgs sys args { route with rtDst := sys.addr target }
            else none
      else if opt = cstr "-host" then
        match args with
        | [] => none
        | target :: args =>
            if target.length + 1 ≤ targetSize then
              parseArgs sys args
                { route with rtDst := sys.addr target, rtFlags := { route.rtFlags with host := true } }
            else none
      else some none

/-- The part behind the loop: the result and the `ioctl` that was issued. -/
def issueRoute (sys : System) (action : Int) (route : RtEntry) : Int × List (Request × RtEntry) :=
  if sys.socket < 0 then (-1, [])
  else
    let request := if action = rtactionDel then .siocDelRt else .siocAddRt
    (if sys.ioctl request route < 0 then -1 else 0, [(request, route)])

/-- The route before the first option. -/
def initRoute : RtEntry := { rtFlags := { up := true } }

/-- `inet_setroute`. The first argument is skipped; `none` is an access out of bounds. -/
def inetSetroute (sys : System) (action : Int) (args : List CStr) :
    Option (Int × List (Request × RtEntry)) :=
  match args with
  | [] => none
  | _ :: args =>
      match parseArgs sys args initRoute with
      | none => none
      | some none => some (-1, [])
      | some (some route) => some (issueRoute sys action route)

/-! ## The grammar -/

/-- The options. -/
inductive RouteOption where
  | net
  | host
  | netmask
  | gw
  | dev
  | mtu
  deriving DecidableEq, Repr

/-- The option of a word. -/
def routeOption (opt : CStr) : Option RouteOption :=
  if opt = cstr "-net" then some .net
  else if opt = cstr "-host" then some .host
  else if opt = cstr "netmask" then some .netmask
  else if opt = cstr "gw" ∨ opt = cstr "gateway" then some .gw
  else if opt = cstr "device" ∨ opt = cstr "dev" then some .dev
  else if opt = cstr "mtu" then some .mtu
  else none

/-- What an option with its value says of the route; the target is a network or a host. -/
def setOption (sys : System) (value : CStr) (route : RtEntry) : RouteOption → RtEntry
  | .net => { route with rtDst := sys.addr value, rtFlags := { route.rtFlags with host := false } }
  | .host => { route with rtDst := sys.addr value, rtFlags := { route.rtFlags with host := true } }
  | .netmask => { route with rtGenmask := sys.addr value }
  | .gw => { route with
      rtGateway := sys.addr value
      rtFlags := { route.rtFlags with gateway := true } }
  | .dev => { route with rtDev := some value }
  | .mtu => { route with rtMtu := sys.atoi value, rtFlags := { route.rtFlags with mtu := true } }

/-- The route of a list of options and values. `none`: an option is unknown or lacks its value. -/
def readRoute (sys : System) : List CStr → RtEntry → Option RtEntry
  | [], route => some route
  | [_], _ => none
  | opt :: value :: args, route =>
      match routeOption opt with
      | some o => readRoute sys args (setOption sys value route o)
      | none => none

/-- The list is a sequence of pairs of a known option and a value. -/
def Grammatical : List CStr → Prop
  | [] => True
  | [_] => False
  | opt :: _ :: args => (routeOption opt).isSome ∧ Grammatical args

/-- Whatever the system does, a list of options and values gives the `ioctl` with the route it says,
    and any other list `-1`. -/
def AcceptsGrammar (args : List CStr) : Prop :=
  ∀ sys action, inetSetroute sys action args =
    some (match readRoute sys args.tail initRoute with
      | some route => issueRoute sys action route
      | none => (-1, []))

/-! ## The lists that are read as they should be -/

/-- The list begins with targets and their values, which fit in `target`. If it ends there, the last
    target is a host when any is; no target lacks its value; and if another word follows, the rest is
    not a sequence of pairs of a known option and a value. The first two arguments say whether there
    was a host before, and whether the last target before was one. -/
def ArgsFit : Bool → Bool → List CStr → Prop
  | anyHost, lastHost, [] => anyHost = lastHost
  | _, _, [opt] => opt ≠ cstr "-net" ∧ opt ≠ cstr "-host"
  | anyHost, _, opt :: value :: args =>
      if opt = cstr "-net" then value.length + 1 ≤ targetSize ∧ ArgsFit anyHost false args
      else if opt = cstr "-host" then value.length + 1 ≤ targetSize ∧ ArgsFit true true args
      else ¬ Grammatical (opt :: value :: args)

variable {sys : System} {args : List CStr} {route : RtEntry}

theorem readRoute_eq_none : readRoute sys args route = none ↔ ¬ Grammatical args := by
  fun_induction readRoute sys args route with
  | case1 => simp [Grammatical]
  | case2 => simp [Grammatical]
  | case3 route opt value args o ho ih => simp [Grammatical, ho, ih]
  | case4 route opt value args ho => simp [Grammatical, ho]

/-- **The loop against the grammar.** Before it, the flag for a host is set when there was a host,
    and it should be set when the last target was one. -/
theorem parseArgs_iff {anyHost lastHost : Bool} (hroute : route.rtFlags.host = anyHost) :
    parseArgs sys args route =
        some (readRoute sys args { route with rtFlags := { route.rtFlags with host := lastHost } }) ↔
      ArgsFit anyHost lastHost args := by
  fun_induction ArgsFit anyHost lastHost args generalizing route with
  | case1 anyHost lastHost =>
      rw [parseArgs, readRoute, Option.some.injEq, Option.some.injEq, ← hroute]
      constructor
      · intro h
        exact congrArg (fun r : RtEntry => r.rtFlags.host) h
      · rintro rfl
        rfl
  | case2 anyHost lastHost opt =>
      rw [parseArgs, readRoute]
      split
      · case isTrue hnet => simp [hnet]
      · case isFalse hnet =>
          split
          · case isTrue hhost => simp [hhost]
          · case isFalse hhost => simp [hnet, hhost]
  | case3 anyHost lastHost value args ih =>
      have hopt : routeOption (cstr "-net") = some .net := rfl
      rw [parseArgs, readRoute, if_pos rfl, hopt]
      split
      · case isTrue hfit =>
          rw [and_iff_right hfit]
          refine ih ?_
          exact hroute
      · case isFalse hlong => simp [hlong]
  | case4 anyHost lastHost value args hnet ih =>
      have hopt : routeOption (cstr "-host") = some .host := rfl
      rw [parseArgs, readRoute, if_neg hnet, if_pos rfl, hopt]
      split
      · case isTrue hfit =>
          rw [and_iff_right hfit]
          refine ih ?_
          rfl
      · case isFalse hlong => simp [hlong]
  | case5 anyHost lastHost opt value args hnet hhost =>
      rw [parseArgs, if_neg hnet, if_neg hhost, Option.some.injEq, eq_comm, readRoute_eq_none]

theorem parseArgs_initRoute (sys : System) :
    parseArgs sys args initRoute = some (readRoute sys args initRoute) ↔
      ArgsFit false false args := by
  refine parseArgs_iff ?_
  rfl

/-- **Which lists are read as they should be.** For every list of arguments behind the one that is
    skipped: whatever the system and the action, `inet_setroute` issues the `ioctl` with the route
    that the list says, or returns `-1` when it is no list of options and values, exactly when the
    list fits. -/
theorem inetSetroute_iff (first : CStr) (args : List CStr) :
    AcceptsGrammar (first :: args) ↔ ArgsFit false false args := by
  constructor
  · intro h
    -- on a system where nothing fails the calls tell the route
    let sys : System := ⟨fun _ => 0, fun _ => 0, 0, fun _ _ => 0⟩
    have hissue : ∀ route, issueRoute sys 0 route = (0, [(.siocAddRt, route)]) := fun _ => rfl
    have hsys := h sys 0
    rw [inetSetroute, List.tail_cons] at hsys
    refine (parseArgs_initRoute sys).1 ?_
    cases hparse : parseArgs sys args initRoute with
    | none =>
        rw [hparse] at hsys
        cases hsys
    | some parsed =>
        cases hread : readRoute sys args initRoute <;> cases parsed <;>
          simp only [hparse, hread, hissue, Option.some.injEq, Prod.mk.injEq, List.cons.injEq,
            and_true, true_and, reduceCtorEq, and_false] at hsys
        · rfl
        · rw [hsys]
  · intro h sys action
    have hparse := (parseArgs_initRoute sys).2 h
    rw [inetSetroute, hparse, List.tail_cons]
    cases readRoute sys args initRoute <;> rfl

/-- The example of the usage comment is refused. -/
theorem inetSetroute_usage : ¬ AcceptsGrammar [cstr "inet_setroute", cstr "-net",
    cstr "192.56.76.0", cstr "netmask", cstr "255.255.255.0", cstr "dev", cstr "eth0"] := by
  intro h
  have hsys := h ⟨fun _ => 0, fun _ => 0, 0, fun _ _ => 0⟩ 1
  exact absurd hsys (by decide)

end XToolkits.Net
