import Facade.Generator.Emit
import Facade.Generator.Resolve

/-!
# Passes

A pass resolves and emits its candidates one after the other. With a fingerprint function a generator
remembers the units of its last pass, and uses them again where a fingerprint is the same. A pass can
be cancelled while it runs; then it leaves no trace.

* `Registry`: what a pass registers;
* `Calls`, `Moment`: the calls of the service so far, and when cancellation is requested;
* `Memo`, `Generator`: what a generator remembers;
* `Generator.execute`: a pass.
-/

namespace Facade

/-- What passes have registered: units by their hint names, skips and notices. -/
structure Registry where
  units : List GeneratedUnit
  skips : List Skip
  notices : List Notice
deriving DecidableEq

namespace Registry

/-- The registry with nothing in it. -/
def empty : Registry := ⟨[], [], []⟩

/-- Registers a unit in the place of any other with its hint name; it becomes the last one. -/
def addUnit (r : Registry) (u : GeneratedUnit) : Registry :=
  { r with units := r.units.filter (fun v => v.hintName != u.hintName) ++ [u] }

/-- Registers units, skips and notices in order. -/
def add (r : Registry) (units : List GeneratedUnit) (skips : List Skip)
    (notices : List Notice) : Registry :=
  let r := units.foldl addUnit r
  { r with skips := r.skips ++ skips, notices := r.notices ++ notices }

end Registry

/-! ## Cancellation -/

/-- The calls of a service in a pass so far: questions for declared symbols, and for interfaces. -/
structure Calls where
  symbols : Nat
  interfaces : Nat
deriving Repr, DecidableEq

/-- When the cancellation of a pass is requested. -/
inductive Moment where
  /-- Before the pass begins. -/
  | before
  /-- During the call with this number, counted from one, for a declared symbol. -/
  | atSymbol (n : Nat)
  /-- During the call with this number, counted from one, for interfaces. -/
  | atInterfaces (n : Nat)
  | never
deriving Repr, DecidableEq

/-- Whether cancellation has been requested after these calls. -/
def Moment.isReached (calls : Calls) : Moment → Bool
  | before => true
  | atSymbol n => 0 < n && n ≤ calls.symbols
  | atInterfaces n => 0 < n && n ≤ calls.interfaces
  | never => false

/-- The calls after the resolution of one more candidate: one for its symbol, and one for the
interfaces if it has a symbol. -/
def Calls.after (calls : Calls) (service : Service) (site : TypeSite) : Calls :=
  ⟨calls.symbols + 1,
    if (service.declaredSymbol? site.id).isSome then calls.interfaces + 1 else calls.interfaces⟩

/-! ## Generators -/

/-- Units by their fingerprints. -/
abbrev Memo := List (String × GeneratedUnit)

namespace Memo

/-- The unit with this fingerprint. -/
def get? (m : Memo) (key : String) : Option GeneratedUnit :=
  (m.find? fun e => e.1 == key).map Prod.snd

/-- Remembers a unit under a fingerprint in the place of any other. -/
def put (m : Memo) (key : String) (u : GeneratedUnit) : Memo :=
  m.filter (fun e => e.1 != key) ++ [(key, u)]

/-- The fingerprints of the memo. -/
def keys (m : Memo) : List String := m.map Prod.fst

end Memo

/-- How fingerprints are computed. -/
abbrev FingerprintFunction := Container → Target → String

/-- A generator: its fingerprint function, if it has one, the units of its last pass, and how often a
unit has been used again. -/
structure Generator where
  fingerprint? : Option FingerprintFunction
  memo : Memo
  cacheHits : Nat

/-- A generator that has not run. -/
def Generator.fresh (fingerprint? : Option FingerprintFunction) : Generator :=
  ⟨fingerprint?, [], 0⟩

/-- What a pass has gathered so far. -/
structure Progress where
  units : List GeneratedUnit
  skips : List Skip
  notices : List Notice
  memo : Memo
  hits : Nat
  calls : Calls

/-- What a pass begins with. -/
def Progress.start : Progress := ⟨[], [], [], [], 0, ⟨0, 0⟩⟩

/-- The candidates that are present, each once, where it first occurs. -/
def distinctCandidates (candidates : List (Option TypeSite)) : List TypeSite :=
  (candidates.filterMap id).foldl
    (fun found t => if found.any fun f => f.id == t.id then found else found ++ [t]) []

/-- A pass was cancelled. -/
structure Cancelled where
deriving Repr, DecidableEq

namespace Generator

variable (g : Generator) (service : Service)

/-- What comes of a container and its target, whether a remembered unit is used, and the memo
afterwards. -/
def produce (memo : Memo) (c : Container) (t : Target) : Outcome × Bool × Memo :=
  match g.fingerprint? with
  | none => (emit c t, false, memo)
  | some f =>
    let key := f c t
    match g.memo.get? key with
    | some u => (.unit u, true, memo.put key u)
    | none =>
      match emit c t with
      | .unit u => (.unit u, false, memo.put key u)
      | .skip s => (.skip s, false, memo)

/-- One candidate of a pass. -/
def advance (p : Progress) (site : TypeSite) : Progress :=
  let p := { p with calls := p.calls.after service site }
  match service.resolve site with
  | .error s => { p with skips := p.skips ++ [s] }
  | .ok r =>
    let (outcome, isHit, memo) := g.produce p.memo (r.container service) r.target
    let p := { p with
      notices := p.notices ++ r.notices
      memo := memo
      hits := if isHit then p.hits + 1 else p.hits }
    match outcome with
    | .skip s => { p with skips := p.skips ++ [s] }
    | .unit u => if u.text.isEmpty then p else { p with units := p.units ++ [u] }

/-- The candidates of a pass, one after the other. Cancellation is looked for before each, and after
the last. -/
def runCandidates (moment : Moment) (p : Progress) : List TypeSite → Except Cancelled Progress
  | [] => if moment.isReached p.calls then .error ⟨⟩ else .ok p
  | site :: rest =>
    if moment.isReached p.calls then .error ⟨⟩
    else runCandidates moment (g.advance service p site) rest

/-- A pass: the generator and the registry afterwards. A pass without candidates does nothing, and a
cancelled one registers nothing. -/
def execute (moment : Moment) (candidates : List (Option TypeSite)) (registry : Registry) :
    Except Cancelled (Generator × Registry) :=
  match distinctCandidates candidates with
  | [] => .ok (g, registry)
  | sites => do
    let p ← g.runCandidates service moment .start sites
    return ({ g with memo := p.memo, cacheHits := g.cacheHits + p.hits },
      registry.add p.units p.skips p.notices)

end Generator

end Facade
