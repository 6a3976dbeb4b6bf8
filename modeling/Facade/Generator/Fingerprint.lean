import Facade.Digest.Sha256
import Facade.Generator.Outcome
import Facade.Version

/-!
# Fingerprints

A fingerprint is the hash of a text that names everything a generated unit depends on. Equal
fingerprints let a unit be used again.

* `ForwardedMethod.signature`, `facadeStream`, `facadeFingerprint`: of a container and its target;
* `unitStream`, `unitFingerprint`: of the text of a unit.
-/

namespace Facade

/-- What a facade depends on in a method. -/
def ForwardedMethod.signature (m : ForwardedMethod) : String :=
  m.name ++ m.genericSuffix ++ "(" ++
    ",".intercalate (m.parameters.map ForwardedParameter.declaration) ++ ")->" ++
    (if m.returnsVoid then "~" else m.returnType) ++ " " ++ " ".intercalate m.constraintClauses

/-- Texts, each ended by a null character. -/
def nullEnded (texts : List String) : String := String.join (texts.map fun t => t ++ "\x00")

/-- What a facade depends on in its container. -/
def Container.stream (c : Container) : String :=
  "CONTAINER:" ++ c.keyword ++ ":" ++ c.displayName ++ "@" ++ c.accessibility.code ++ "ns=" ++
    c.space.getD "" ++
    String.join (c.outerTypes.map fun o => "OUTER:" ++ o.1 ++ ":" ++ o.2)

/-- What a facade depends on in its target. -/
def Target.stream (t : Target) : String :=
  "TARGET:" ++ t.displayName ++ "IMPORTS:" ++ nullEnded t.imports ++ "METHODS:" ++
    nullEnded (t.methods.map ForwardedMethod.signature)

/-- Everything that a facade depends on. -/
def facadeStream (c : Container) (t : Target) : String :=
  "GENERATOR:" ++ version ++ c.stream ++ t.stream

/-- The fingerprint of a facade. -/
def facadeFingerprint (c : Container) (t : Target) : String := Sha256.hex (facadeStream c t)

/-- The name and the text of a unit. -/
def unitStream (u : GeneratedUnit) : String := "UNIT:" ++ u.hintName ++ "TEXT:" ++ u.text

/-- The fingerprint of a unit. -/
def unitFingerprint (u : GeneratedUnit) : String := Sha256.hex (unitStream u)

end Facade
