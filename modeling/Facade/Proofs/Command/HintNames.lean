import Facade.Command.Run
import Facade.Proofs.Cache.Keeping
import Facade.Proofs.Generation.Described
import Facade.Proofs.Generation.Registration
import Facade.Proofs.Syntax.WrittenSource

/-!
# Names of the units of a run

A run names its units after declarations of its sources, so that their files can be written.

* `Generator.namedAfter_run`: every unit is named after a candidate;
* `Options.isHintName_of_gather`: its name may be that of a file.
-/

namespace Facade

/-- The unit is registered under the name of one of the declarations. -/
def GeneratedUnit.NamedAfter (u : GeneratedUnit) (sites : List TypeSite) : Prop :=
  ∃ site ∈ sites, u.hintName = site.head.name ++ ".generated"

namespace Generator

variable {service : Service}

theorem hintName_of_emit {c : Container} {t : Target} {u : GeneratedUnit}
    (h : emit c t = .unit u) : u.hintName = c.name ++ ".generated" := by
  unfold emit at h
  split at h
  · cases h
  · cases h
  · cases h
    rfl

theorem site_of_resolve {site : TypeSite} {r : Resolution} (h : service.resolve site = .ok r) :
    r.site = site := by
  unfold Service.resolve at h
  split at h
  · cases h
  · unfold Service.resolveSymbol at h
    split at h
    · cases h
    · split at h
      · cases h
      · split_ifs at h
        cases h
        rfl

/-- **Every unit of a run is named after one of its candidates.** -/
theorem namedAfter_run {incremental : Bool} {units : List CompilationUnit} {moment : Moment}
    {result : RunResult} {after : Generator}
    (h : (forRuns incremental).run units moment = .ok (result, after)) :
    ∀ u ∈ result.registry.units, u.NamedAfter (candidatesOf units) := by
  intro u hu
  obtain ⟨site, hsite, houtcome⟩ := emitted_of_run h u hu
  obtain ⟨r, hr, hemit⟩ := Service.outcome_eq_unit.mp houtcome
  have hname := hintName_of_emit hemit
  rw [Resolution.container, site_of_resolve hr] at hname
  exact ⟨site, hsite, hname⟩

end Generator

/-! ## Names of files -/

theorem isHintName_of_named {n : String} (h : Named n) : IsHintName (n ++ ".generated") := by
  have hmem : ∀ c ∈ n.toList, Text.isWord c = true ∨ c = '@' := by
    intro c hc
    have hplain : ∀ cs : List Char, Scan.IsPlainName cs → c ∈ cs → Text.isWord c = true := by
      intro cs hcs hc
      cases cs with
      | nil => cases hc
      | cons d cs =>
        rcases List.mem_cons.mp hc with rfl | hc
        · have hstart := hcs.1
          rw [Text.isNameStart, Bool.and_eq_true] at hstart
          exact hstart.1
        · exact hcs.2 c hc
    rcases h with h | ⟨plain, heq, h⟩
    · exact .inl (hplain _ h hc)
    · rw [heq] at hc
      rcases List.mem_cons.mp hc with rfl | hc
      · exact .inr rfl
      · exact .inl (hplain _ h hc)
  constructor
  · rw [String.toList_append, List.mem_append, not_or]
    exact ⟨fun hc => absurd (hmem _ hc) (by decide), by decide⟩
  · rw [String.toList_append, List.mem_append, not_or]
    exact ⟨fun hc => absurd (hmem _ hc) (by decide), by decide⟩

theorem Reporter.parsed_of_load {d : Disk} {r : Reporter} {places : List Location} :
    ∀ e ∈ (r.load d places).2, ∃ path source, CompilationUnit.parse path source = .ok e.2 := by
  induction places generalizing r with
  | nil => simp [Reporter.load]
  | cons place rest ih =>
    intro e he
    rw [Reporter.load] at he
    rcases List.mem_append.mp he with he | he
    · rw [Option.mem_toList] at he
      unfold loadFile at he
      split at he
      · next text htext =>
        unfold parseSource at he
        split at he
        · next found hfound =>
          cases he
          refine ⟨Location.text place, text, ?_⟩
          rw [CompilationUnit.parse, hfound]
          rfl
        · cases he
      · cases he
    · exact ih e he

/-- **The units of a run have names of files.** -/
theorem Options.isHintName_of_gather {o : Options} {s : Setting} {d : Disk} {g : Generated}
    (h : o.gather s d = some g) : ∀ u ∈ g.result.outputUnits, IsHintName u.hintName := by
  unfold gather at h
  split at h
  next r places hcollect =>
  split at h
  · cases h
  split at h
  next r' sources hload =>
  split at h
  · next result after hrun =>
    cases h
    have hunits : ∀ c ∈ sources.map Prod.snd, c.IsWritten fun _ => True := by
      intro c hc
      obtain ⟨e, he, rfl⟩ := List.mem_map.mp hc
      have hloaded := @Reporter.parsed_of_load d r places
      rw [hload] at hloaded
      obtain ⟨path, source, hparse⟩ := hloaded e he
      exact CompilationUnit.isWritten_of_parse (fun _ _ => trivial) hparse
    intro u hu
    rcases List.mem_append.mp hu with hu | hu
    · obtain rfl : u = ⟨unitName Marker.hintName, Marker.hintName, Marker.source⟩ := by
        simpa [markerSources] using hu
      decide
    · obtain ⟨site, hsite, hname⟩ := Generator.namedAfter_run hrun u hu
      obtain ⟨candidates, hcandidates, hmem⟩ := List.mem_flatten.mp hsite
      obtain ⟨i, hi, rfl⟩ := List.mem_mapIdx.mp hcandidates
      have hwritten := (hunits _ (List.getElem_mem hi)).typeSites i site (List.mem_filter.mp hmem).1
      rw [hname]
      exact isHintName_of_named hwritten.head.name
  · cases h

end Facade
