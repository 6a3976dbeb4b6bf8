/-!
# Accessibility

From where a type or member may be used.

* `Accessibility`, `Accessibility.title`: the levels;
* `Accessibility.ofModifiers`: the level that the modifiers of a declaration ask for;
* `Accessibility.keyword?`: the words that declare a level.
-/

namespace Facade

/-- The levels of access. A type of one source file has none. -/
inductive Accessibility where
  | notApplicable
  | privateAccess
  | protectedAndInternal
  | protectedAccess
  | internalAccess
  | protectedOrInternal
  | publicAccess
deriving Repr, DecidableEq, Inhabited

namespace Accessibility

/-- The name of a level. -/
def title : Accessibility → String
  | notApplicable => "not applicable"
  | privateAccess => "private"
  | protectedAndInternal => "private protected"
  | protectedAccess => "protected"
  | internalAccess => "internal"
  | protectedOrInternal => "protected internal"
  | publicAccess => "public"

/-- The code of a level in fingerprints. -/
def code : Accessibility → String
  | notApplicable => "NOT_APPLICABLE"
  | privateAccess => "PRIVATE"
  | protectedAndInternal => "PROTECTED_AND_INTERNAL"
  | protectedAccess => "PROTECTED"
  | internalAccess => "INTERNAL"
  | protectedOrInternal => "PROTECTED_OR_INTERNAL"
  | publicAccess => "PUBLIC"

/-- The words that declare a level for a facade; a type shared only within its file or with derived
types anywhere has none. -/
def keyword? : Accessibility → Option String
  | privateAccess => some "private"
  | protectedAndInternal => some "private protected"
  | protectedAccess => some "protected"
  | internalAccess => some "internal"
  | publicAccess => some "public"
  | notApplicable | protectedOrInternal => none

/-- The modifiers that say something about access. -/
def words : List String := ["public", "private", "protected", "internal", "file"]

/-- The level that modifiers ask for. A file-local type has none; two words together make a level of
their own, and otherwise the widest word counts. -/
def ofModifiers (modifiers : List String) (default : Accessibility) : Accessibility :=
  let has (w : String) : Bool := modifiers.contains w
  if has "file" then notApplicable
  else if has "private" && has "protected" then protectedAndInternal
  else if has "protected" && has "internal" then protectedOrInternal
  else if has "public" then publicAccess
  else if has "internal" then internalAccess
  else if has "protected" then protectedAccess
  else if has "private" then privateAccess
  else default

end Accessibility

end Facade
