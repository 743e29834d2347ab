import VxlanRouting.View

/-!
Members of a composite, built from the sources of a route item. A source names a local route. It
contributes the next-hops of the path that was exported for it or, if there are none, those of a
local route behind which a machine speaks BGP. A source that is no prefix contributes nothing.
-/
namespace VxlanRouting

/-- A state that the engine itself never leads to. -/
inductive Fault where
  | exportKind (source : Prefix) (vrf : String) (kind : HopKind)
  | memberKind (kind : HopKind)
  | noComposite
  deriving DecidableEq, Repr

def Fault.message (f : Fault) : String :=
  "internal error: entered unreachable code: " ++
  match f with
  | .exportKind s vrf k =>
    "Local export path for " ++ toString s ++ " in " ++ vrf ++ " has a " ++ k.name ++ " next-hop"
  | .memberKind k => "Unexpected " ++ k.name ++ " member"
  | .noComposite => "Ecmp advertisement without a composite"

/-- A live member as a member of a new composite. -/
def LiveMember.toKey (m : LiveMember) : MemberKey := ⟨m.label, m.hop.key⟩

namespace View

/-- The members of the exported path of a source; only interfaces and composites are exported. -/
def exportMembers (v : View) (vrf : String) (t : TableKind) (s : Prefix) :
    Except Fault (List MemberKey) :=
  match (v.tables.locate? vrf t s.address s.length).bind (·.findKind? .localExport) with
  | none => .ok []
  | some x =>
    match x.hop with
    | .interface name label policy => .ok [⟨label, .interface name policy⟩]
    | .composite _ _ slots => .ok ((slots.filterMap Slot.member?).map LiveMember.toKey)
    | h => .error (.exportKind s vrf h.hopKind)

/-- The members without label that a local next-hop gives, if a machine behind it speaks BGP. -/
def sessionHopMembers? (v : View) (h : NextHop) : Option (List MemberKey) :=
  if v.tables.IsSessionInterface h then some [⟨noLabel, h.key⟩]
  else if v.tables.IsSessionComposite h then
    h.live?.map fun ms => (ms.filter (·.hop.isInterface)).map fun m => ⟨noLabel, m.hop.key⟩
  else none

/-- The next-hop of the best path of a local machine on the Inet route of a source. -/
def localHop? (v : View) (vrf : String) (s : Prefix) : Option NextHop :=
  ((v.tables.locate? vrf .inet s.address s.length).bind (·.findKind? .localVm)).map (·.hop)

/-- The VRF is searched first and the bridges of its router after it. -/
def sessionMembers (v : View) (vrf : String) (s : Prefix) : List MemberKey :=
  ((vrf :: (v.routers.bridgesOf vrf).map (·.2)).findSome? fun c =>
    (v.localHop? c s).bind v.sessionHopMembers?).getD []

def sourceMembers (v : View) (vrf : String) (t : TableKind) (s : Prefix) :
    Except Fault (List MemberKey) :=
  match v.exportMembers vrf t s with
  | .error f => .error f
  | .ok [] => .ok (v.sessionMembers vrf s)
  | .ok ms => .ok ms

/-- The members of all sources, in their order. -/
def prefixMembers (v : View) (vrf : String) (t : TableKind) :
    List Prefix → Except Fault (List MemberKey)
  | [] => .ok []
  | s :: ss =>
    match v.sourceMembers vrf t s, v.prefixMembers vrf t ss with
    | .error f, _ => .error f
    | .ok _, .error f => .error f
    | .ok ms, .ok rest => .ok (ms ++ rest)

def members (v : View) (vrf : String) (t : TableKind) (sources : List String) :
    Except Fault (List MemberKey) :=
  v.prefixMembers vrf t (sources.filterMap fun s => (Prefix.ofSource s.toList).toOption)

end View

end VxlanRouting
