import Mathlib.Tactic.Common
import Facade.Grammar.Parse

/-!
# Reading without a depth

What a parse reads, as a relation that knows no depth.

* `Pattern.Reads`: reading a pattern, from one state of the parser to another;
* `Pattern.reads_of_parse`: what a parse reads is read in this sense.
-/

namespace Facade

namespace Pattern

/-- Reading a pattern after which one of `after` must come: from the parts and the state before it to
those behind it. -/
inductive Reads :
    Pattern → TerminalSet → List Tree → Parser → List Tree → Parser → Prop
  | token {t after parts s found s'} : s.take t after = .ok (found, s') →
      Reads (.token t) after parts s (.leaf found :: parts) s'
  | rule {r after parts s inner s'} : Reads r.body r.follow [] s inner s' →
      s'.check after = .ok () → Reads (.rule r) after parts s (r.node inner.reverse :: parts) s'
  | seq {p q after parts s parts' s' parts'' s''} : Reads p (q.admits after) parts s parts' s' →
      Reads q after parts' s' parts'' s'' → Reads (.seq p q) after parts s parts'' s''
  | left {p q after parts s parts' s'} : s.terminal ∈ p.first → Reads p after parts s parts' s' →
      Reads (.alt p q) after parts s parts' s'
  | right {p q after parts s parts' s'} : s.terminal ∉ p.first → Reads q after parts s parts' s' →
      Reads (.alt p q) after parts s parts' s'
  | none {p after parts s} : s.terminal ∉ p.first → Reads (.opt p) after parts s parts s
  | some {p after parts s parts' s'} : s.terminal ∈ p.first → Reads p after parts s parts' s' →
      Reads (.opt p) after parts s parts' s'
  | once {p repeated after parts s parts' s'} : Reads p repeated parts s parts' s' →
      s'.check (p.first ∪ after) = .ok () → s'.terminal ∉ p.first →
      Reads (.plus repeated p) after parts s parts' s'
  | more {p repeated after parts s parts' s' parts'' s''} : Reads p repeated parts s parts' s' →
      s'.check (p.first ∪ after) = .ok () → s'.terminal ∈ p.first →
      Reads (.plus repeated p) after parts' s' parts'' s'' →
      Reads (.plus repeated p) after parts s parts'' s''
  | resume {r n p after parts s inner s'} : Reads p r.follow (parts.take n) s inner s' →
      s'.check after = .ok () →
      Reads (.resume r n p) after parts s (r.node inner.reverse :: parts.drop n) s'

theorem bind_eq_ok {α β ε : Type} {x : Except ε α} {f : α → Except ε β} {b : β} :
    (x >>= f) = .ok b ↔ ∃ a, x = .ok a ∧ f a = .ok b := by
  cases x with
  | error e => simp [Bind.bind, Except.bind]
  | ok a => simp [Bind.bind, Except.bind]

theorem reads_of_parse {depth : Nat} {p : Pattern} {after : TerminalSet} {parts parts' : List Tree}
    {s s' : Parser} (h : p.parse depth after parts s = .ok (parts', s')) :
    p.Reads after parts s parts' s' := by
  induction depth generalizing p after parts s parts' s' with
  | zero => simp [parse] at h
  | succ depth ih =>
    cases p with
    | token t =>
      simp only [parse, bind_eq_ok] at h
      obtain ⟨⟨found, s₁⟩, htake, h⟩ := h
      cases h
      exact .token htake
    | rule r =>
      simp only [parse, bind_eq_ok] at h
      obtain ⟨⟨inner, s₁⟩, hinner, ⟨⟩, hcheck, h⟩ := h
      cases h
      exact .rule (ih hinner) hcheck
    | seq p q =>
      simp only [parse, bind_eq_ok] at h
      obtain ⟨⟨parts₁, s₁⟩, hp, hq⟩ := h
      exact .seq (ih hp) (ih hq)
    | alt p q =>
      simp only [parse] at h
      split_ifs at h with hfirst
      · exact .left hfirst (ih h)
      · exact .right hfirst (ih h)
    | opt p =>
      simp only [parse] at h
      split_ifs at h with hfirst
      · exact .some hfirst (ih h)
      · cases h
        exact .none hfirst
    | plus repeated p =>
      simp only [parse, bind_eq_ok] at h
      obtain ⟨⟨parts₁, s₁⟩, hp, ⟨⟩, hcheck, h⟩ := h
      split_ifs at h with hfirst
      · exact .more (ih hp) hcheck hfirst (ih h)
      · cases h
        exact .once (ih hp) hcheck hfirst
    | resume r n p =>
      simp only [parse, bind_eq_ok] at h
      obtain ⟨⟨inner, s₁⟩, hinner, ⟨⟩, hcheck, h⟩ := h
      cases h
      exact .resume (ih hinner) hcheck

end Pattern

end Facade
