import VxlanRouting.LogicalRouter.Map
import VxlanRouting.Vrf

/-!
Reports for an operator: the routes of a VRF and the logical routers, each under a heading between
two rules and above a closing rule.
-/
namespace VxlanRouting.Report

/-- The width of a closing rule. -/
def width : Nat := 81

/-- A rule is never empty. -/
def rule (n : Nat) : String := " " ++ String.ofList (List.replicate (max 1 n) '─')

/-- The title takes its place from the two rules beside it; its size is counted in bytes. -/
def heading (title : String) : String :=
  let n := (width - (title.utf8ByteSize + 2)) / 2
  rule n ++ " " ++ title ++ " " ++ rule n ++ "\n"

def closing : String := rule width ++ "\n"

/-- A table with its heading, which counts the rows. -/
def table (title : String) (rows : List String) : String :=
  heading (title ++ " (" ++ toString rows.length ++ ")") ++ String.join rows ++ closing

/-- An EVPN route starts with its hardware address and its tag. -/
def evpnRow (k : EvpnKey) (r : Route) : String :=
  "  [" ++ toString k.mac ++ ", tag " ++ toString k.tag ++ "]" ++ toString r

def vrfLine (v : Vrf) : String := " Vrf: '" ++ v.name ++ "'\n"

def evpnRoutes (v : Vrf) : String :=
  vrfLine v ++ table "EVPN routes" (v.evpn.entries.map fun e => evpnRow e.1 e.2)

def inetRoutes (v : Vrf) : String := vrfLine v ++ table "Inet routes" (v.inet.values.map toString)

/-- What stands for a name that there is not. -/
def nameOrDashes (s : Option String) : String := s.getD "--"

def routerRow (id : LogicalRouterId) (r : LogicalRouter) : String :=
  " " ++ toString id ++ "\n" ++
  "  routing vn : " ++ nameOrDashes r.routingVn ++ " (vrf " ++ nameOrDashes r.routingVrf ++ ")\n" ++
  String.join (r.bridges.entries.map fun b =>
    "  bridge vn  : " ++ b.1 ++ " (vrf " ++ b.2 ++ ")\n") ++
  "  ecmp seq   : " ++ toString r.ecmpSequence ++ "\n"

def logicalRouters (m : RouterMap) : String :=
  table "Logical routers" (m.routers.entries.map fun e => routerRow e.1 e.2)

end VxlanRouting.Report
