import VxlanRouting.Document.Datum
import VxlanRouting.Document.Yaml
import VxlanRouting.Parameters
import VxlanRouting.Text.Blank

/-!
The configuration: the identifier of this router and, if they are not to be the defaults, the names
of the fabric VRF and of the two peers of the engine. It is read from a record or from the list of
its values. A configuration is sound if its router identifier belongs to one host, no given name is
blank and the two peers have different names.
-/
namespace VxlanRouting

structure Config where
  routerId : Address
  fabricVrf : Option String := none
  exportPeerName : Option String := none
  leakPeerName : Option String := none
  deriving DecidableEq, Repr

/-- The names that may be given. -/
inductive ConfigName where
  | fabricVrf | exportPeer | leakPeer
  deriving DecidableEq, Repr

def ConfigName.text : ConfigName → String
  | .fabricVrf => "fabric vrf"
  | .exportPeer => "interface peer name"
  | .leakPeer => "vxlan-bgp peer name"

/-- Why a configuration is not sound. -/
inductive ConfigError where
  | badRouterId (address : Address)
  | blank (name : ConfigName)
  | sameNames
  deriving DecidableEq, Repr

def ConfigError.message (e : ConfigError) : String :=
  "Invalid configuration: " ++
  match e with
  | .badRouterId a => "bad router id " ++ toString a
  | .blank n => "empty " ++ n.text
  | .sameNames => "interface and vxlan-bgp peers must have distinct names"

namespace Config

/-- The names of the members, in the order of the list form. -/
def memberNames : List String :=
  ["router_id", "fabric_vrf", "interface_peer_name", "vxlan_bgp_peer_name"]

/-- The configuration of a router identifier's text and the names that are given. -/
def ofTexts? (routerId : String) (fabricVrf exportPeer leakPeer : Option String) : Option Config :=
  (Address.ofText? routerId.toList).map fun a => ⟨a, fabricVrf, exportPeer, leakPeer⟩

/-- Reads the four values. -/
def ofValues? (routerId fabricVrf exportPeer leakPeer : Option Datum) : Option Config := do
  ofTexts? (← (← routerId).text?) (← Datum.optionalText? fabricVrf)
    (← Datum.optionalText? exportPeer) (← Datum.optionalText? leakPeer)

/-- Every name is that of a member and occurs once. -/
def ValidNames (names : List String) : Prop := names.Nodup ∧ ∀ n ∈ names, n ∈ memberNames

instance (names : List String) : Decidable (ValidNames names) :=
  inferInstanceAs (Decidable (_ ∧ _))

def ofDatum? : Datum → Option Config
  | .record ms =>
    if ValidNames (ms.map (·.1)) then
      ofValues? (Datum.member? "router_id" ms) (Datum.member? "fabric_vrf" ms)
        (Datum.member? "interface_peer_name" ms) (Datum.member? "vxlan_bgp_peer_name" ms)
    else none
  | .list l => if l.length ≤ 4 then ofValues? l[0]? l[1]? l[2]? l[3]? else none
  | _ => none

/-- Reads the entries of a YAML mapping. -/
def ofScalars? (es : List (Yaml.Scalar × Yaml.Scalar)) : Option Config :=
  let scalar? (name : String) := (es.find? fun e => e.1.text == name).map (·.2)
  let text? (name : String) := ((scalar? name).map Yaml.Scalar.optionalText?).getD (some none)
  if ValidNames (es.map (·.1.text)) then do
    ofTexts? (← scalar? "router_id").text (← text? "fabric_vrf") (← text? "interface_peer_name")
      (← text? "vxlan_bgp_peer_name")
  else none

/-- The members of the record form; a name that is not given has none. -/
def members (c : Config) : List (String × String) :=
  [("router_id", some (toString c.routerId)), ("fabric_vrf", c.fabricVrf),
    ("interface_peer_name", c.exportPeerName), ("vxlan_bgp_peer_name", c.leakPeerName)].filterMap
    fun m => m.2.map (m.1, ·)

def toDatum (c : Config) : Datum := .record (c.members.map fun m => (m.1, .text m.2))

def ofYaml? (s : String) : Option Config := (Yaml.entries? s).bind ofScalars?

/-- A document that holds the configuration, one member a line. -/
def toYaml (c : Config) : String :=
  String.join (c.members.map fun m =>
    m.1 ++ ": " ++ String.ofList (Yaml.doubleQuoted m.2.toList) ++ "\n")

/-- The first given name that is blank. -/
def blankName? (c : Config) : Option ConfigName :=
  ([(.fabricVrf, c.fabricVrf), (.exportPeer, c.exportPeerName),
    (.leakPeer, c.leakPeerName)].find? fun (e : ConfigName × Option String) =>
    e.2.any fun s => decide (Text.IsBlankText s)).map (·.1)

/-- The parameters of a sound configuration; names are taken as they are given. -/
def parameters (c : Config) : Except ConfigError Parameters :=
  if c.routerId = .unspecified c.routerId.family ∨ c.routerId.IsMulticast then
    .error (.badRouterId c.routerId)
  else
    match c.blankName? with
    | some n => .error (.blank n)
    | none =>
      let exportName := c.exportPeerName.getD Parameters.defaultExportPeer.name
      let leakName := c.leakPeerName.getD Parameters.defaultLeakPeer.name
      if exportName = leakName then .error .sameNames
      else .ok {
        routerId := c.routerId
        fabricVrf := c.fabricVrf.getD Parameters.defaultFabricVrf
        exportPeer := ⟨exportName, .localExport⟩
        leakPeer := ⟨leakName, .vxlanBgp⟩ }

end Config

end VxlanRouting
