import GraphCodec.Codec.PlanFormat
import GraphCodec.Codec.Table
import GraphCodec.Diagnostic.Failure
import GraphCodec.Emission.ModuleSource
import GraphCodec.Generation.Planning
import GraphCodec.Generation.Walk
import GraphCodec.Schema.Load

/-!
# Generation

Generation makes a `GeneratedUnit` from a type graph and its roots.  It walks from the roots; if
anything that is reached has no codec it fails with every diagnostic, otherwise it plans and emits a
codec for every registered type.
-/

namespace GraphCodec

/-- The settings of generation. -/
structure GeneratorConfig where
  /-- The member that carries the type of a value. -/
  tagMember : String
  /-- What is put behind the name of a type to name its codec. -/
  codecSuffix : String
  /-- What is dropped from the front of the names of fields when they are written. -/
  droppedStart : Option String
  /-- The greatest number of errors that are shown; zero stands for any number. -/
  errorLimit : Nat
deriving DecidableEq, Repr

/-- The settings of a generation that is not told otherwise. -/
def GeneratorConfig.standard : GeneratorConfig :=
  ⟨CodecTable.defaultTag, "_JsonCodec", none, QueueConfig.standard.errorLimit⟩

/-- What a generation yields. -/
structure GeneratedUnit where
  tagMember : String
  /-- The plans in generation order. -/
  plans : List CodecPlan
  /-- The sources of the codecs, in the same order. -/
  sources : List GeneratedSource
  /-- The identities of the codecs, in ascending order of type name. -/
  identities : List (String × String)
  /-- The source of the whole module. -/
  source : String
deriving DecidableEq, Repr

namespace GeneratedUnit

/-- The table of the codecs. -/
def link (u : GeneratedUnit) : CodecTable := .ofPlans u.tagMember u.plans

/-- The text of the plans. -/
def plansText (u : GeneratedUnit) : String := CodecPlan.listText u.plans

/-- The number of codecs. -/
def size (u : GeneratedUnit) : Nat := u.plans.length

end GeneratedUnit

/-- The identities of registered types, in ascending order of type name. -/
def Registry.identities (r : Registry) : List (String × String) :=
  (r.records.map fun c => (c.typeName, c.identity)).mergeSort fun a b => a.1 ≤ b.1

namespace GeneratorConfig

/-- The walk from roots under these settings. -/
def walk (c : GeneratorConfig) (g : TypeGraph) (roots : List TypeId) : WalkState :=
  walkRoots g c.codecSuffix roots
    ⟨.empty, .empty { QueueConfig.standard with errorLimit := c.errorLimit }⟩

/-- The unit with the codecs of some plans. -/
def unit (c : GeneratorConfig) (r : Registry) (plans : List CodecPlan) : GeneratedUnit :=
  let naming : Naming := ⟨c.tagMember, c.codecSuffix, r.identities⟩
  ⟨c.tagMember, plans, plans.map naming.emit, r.identities, (naming.moduleSource plans).render⟩

/-- Generates codecs for roots and everything that can be reached from them. -/
def generate (c : GeneratorConfig) (g : TypeGraph) (roots : List TypeId) :
    Except GenerationFailure GeneratedUnit :=
  let s := c.walk g roots
  if s.queue.hasErrors?.isSome then .error ⟨s.queue.flush.1⟩
  else
    match g.planAll c.droppedStart s.registry with
    | (.error d, _) => .error ⟨[d]⟩
    | (.ok plans, r) => .ok (c.unit r plans)

/-- Generates codecs for the roots of a schema. -/
def generateSchema (c : GeneratorConfig) (s : LoadedSchema) :
    Except GenerationFailure GeneratedUnit :=
  c.generate s.graph s.roots

end GeneratorConfig

end GraphCodec
