import ResourceCode.Proofs.Emission.History
import Mathlib.Data.List.Nodup

/-!
The registry and the report of a generator tell the same story. Behind the built-in emitters stand, in the order
in which they came, those that were accepted and those that were drafted, no two of them for one type. The report
lists the drafted ones in that order, and behind each other what their blueprints leave out.
-/

namespace ResourceCode

/-- The entry of an emitter drafted for a type. -/
def Descriptor.draftedEntry (order : PropertyOrder) (d : Descriptor) : TypeName × Emitter :=
  (d.name, .drafted (.ofDescriptor d order))

/-- When no two entries are for one type, every one of them is found. -/
theorem Registry.find?_of_mem {r : Registry} {type : TypeName} {e : Emitter} (hr : r.keys.Nodup)
    (h : (type, e) ∈ r.entries) : r.find? type = some e := by
  obtain ⟨before, after, hsplit⟩ := List.append_of_mem h
  apply List.lookup_eq_some_iff.mpr
  refine ⟨before, after, hsplit, ?_⟩
  intro entry hmem
  have hkeys : (before.map (·.1) ++ type :: after.map (·.1)).Nodup := by
    simpa [keys, hsplit] using hr
  have hne := (List.nodup_append.mp hkeys).2.2 entry.1 (List.mem_map_of_mem hmem) type
    List.mem_cons_self
  simpa using hne.symm

namespace Generator

/-- The entries behind the built-in ones are those of the accepted emitters and those drafted for `types`, and the
report is about the latter. -/
structure Accounts (options : Options) (added : List TypeName) (types : List Descriptor)
    (more : List (TypeName × Emitter)) (g : Generator) : Prop where
  entries : g.registry.entries = Registry.builtin.entries ++ more
  nodup : g.registry.keys.Nodup
  accepted : (more.map (·.1)).filter (· ∈ added) = added
  drafted : more.filter (·.1 ∉ added) = types.map (Descriptor.draftedEntry options.order)
  reported : g.report.drafted = types.map (·.name.full)
  skipped : g.report.skipped =
    types.flatMap fun d => (Blueprint.ofDescriptor d options.order).skipped.map
      fun (property, obstacle) => ⟨d.name.full, property, obstacle⟩
  options : g.options = options

/-- The registry and the report tell the same story. -/
def Coherent (options : Options) (added : List TypeName) (g : Generator) : Prop :=
  ∃ types more, g.Accounts options added types more

variable {options : Options} {added : List TypeName} {g g' : Generator} {types : List Descriptor}
  {more : List (TypeName × Emitter)}

/-- A generator that has done nothing accounts for an empty report. -/
theorem coherent_fresh (options : Options) : ({ options } : Generator).Coherent options [] := by
  refine ⟨[], [], by simp, ?_, rfl, rfl, rfl, rfl, rfl⟩
  have hkeys : Registry.builtin.keys = Builtin.all.map Builtin.typeName := by
    simp [Registry.keys, Registry.builtin]
  change Registry.builtin.keys.Nodup
  rw [hkeys]
  exact Registry.nodup_typeNames

/-- The registered types are the built-in ones and then the accounted ones. -/
theorem Accounts.keys (hg : g.Accounts options added types more) :
    g.registry.keys = Registry.builtin.keys ++ more.map (·.1) := by
  simp [Registry.keys, hg.entries]

theorem Accounts.mem_keys (hg : g.Accounts options added types more) {type : TypeName}
    (h : type ∈ added) : type ∈ g.registry.keys := by
  rw [← hg.accepted] at h
  rw [hg.keys]
  exact List.mem_append_right _ (List.mem_filter.mp h).1

/-- An entry for a new type goes behind the others. -/
theorem nodup_keys_append {r : Registry} {type : TypeName} (e : Emitter) (hr : r.keys.Nodup)
    (h : type ∉ r.keys) : (Registry.mk (r.entries ++ [(type, e)])).keys.Nodup := by
  have hkeys : (Registry.mk (r.entries ++ [(type, e)])).keys = r.keys ++ [type] := by
    simp [Registry.keys]
  rw [hkeys]
  apply List.nodup_append.mpr
  refine ⟨hr, List.nodup_singleton type, ?_⟩
  intro a ha b hb hab
  rw [List.mem_singleton.mp hb] at hab
  exact h (hab ▸ ha)

/-- Drafting a type that has no emitter is accounted for. -/
theorem Coherent.draft (hg : g.Coherent options added) {type : Descriptor}
    (hnone : g.registry.find? type.name = none) : (g.draft type).2.Coherent options added := by
  obtain ⟨types, more, hg⟩ := hg
  have hkey : type.name ∉ g.registry.keys := by
    intro hmem
    have hsome := Registry.contains_iff.mpr hmem
    simp [Registry.contains, hnone] at hsome
  have hadded : type.name ∉ added := fun hmem => hkey (hg.mem_keys hmem)
  have hdraft : (g.draft type).2 = { g with
      registry := ⟨g.registry.entries ++ [type.draftedEntry options.order]⟩
      report := (g.report.recordSkipped (.ofDescriptor type options.order)).recordDrafted
        (.ofDescriptor type options.order) } := by
    simp only [Generator.draft, Registry.register_of_find?_eq_none _ hnone, hg.options]
    rfl
  rw [hdraft]
  refine ⟨types ++ [type], more ++ [type.draftedEntry options.order], ?_,
    nodup_keys_append _ hg.nodup hkey, ?_, ?_, ?_, ?_, hg.options⟩
  · simp only [hg.entries, List.append_assoc]
  · simp [Descriptor.draftedEntry, hg.accepted, hadded]
  · rw [List.filter_append, hg.drafted, List.map_append]
    simp [Descriptor.draftedEntry, hadded]
  · simp [Report.recordDrafted, Report.recordSkipped, hg.reported]
  · simp [Report.recordDrafted, Report.recordSkipped, Report.skippedBy, hg.skipped]

/-- So is registering an emitter that is accepted, whose type goes to the end of the added ones. -/
theorem Coherent.accept (hg : g.Coherent options added) {e : Emitter}
    (hr : g.register e = .ok g') : g'.Coherent options (added ++ [e.typeName]) := by
  obtain ⟨types, more, hg⟩ := hg
  obtain ⟨hkey, rfl⟩ := register_eq_ok hr
  have hmore : ∀ entry ∈ more, entry.1 ≠ e.typeName := by
    intro entry hmem heq
    apply hkey
    rw [hg.keys, ← heq]
    exact List.mem_append_right _ (List.mem_map_of_mem hmem)
  refine ⟨types, more ++ [(e.typeName, e)], ?_, nodup_keys_append e hg.nodup hkey, ?_, ?_, hg.reported,
    hg.skipped, hg.options⟩
  · simp only [hg.entries, List.append_assoc]
  · -- among the older entries the new type is not to be found
    have hold : (more.map (·.1)).filter (· ∈ added ++ [e.typeName]) = added := by
      refine Eq.trans (List.filter_congr fun type htype => ?_) hg.accepted
      obtain ⟨entry, hmem, rfl⟩ := List.mem_map.mp htype
      simp [hmore entry hmem]
    rw [List.map_append, List.filter_append, hold]
    simp
  · have hold : more.filter (·.1 ∉ added ++ [e.typeName]) = more.filter (·.1 ∉ added) := by
      refine List.filter_congr fun entry hmem => ?_
      simp [hmore entry hmem]
    rw [List.filter_append, hold, hg.drafted]
    simp

theorem lasting_coherent (options : Options) (added : List TypeName) :
    Lasting (Coherent options added) where
  draft hg hnone := hg.draft hnone
  inProgress _ := fun ⟨types, more, hg⟩ =>
    ⟨types, more, hg.entries, hg.nodup, hg.accepted, hg.drafted, hg.reported, hg.skipped, hg.options⟩

/-- A generator accounts for its report whatever has become of it. -/
theorem Becomes.coherent (hg : ({ options } : Generator).Becomes added g) :
    g.Coherent options added := by
  induction hg with
  | same => exact coherent_fresh options
  | accepts _ hr ih => exact ih.accept hr
  | refuses _ _ ih => exact ih
  | emits _ hr ih => exact emitWithin_maintains (lasting_coherent _ _) _ ih hr
  | runs _ hr ih => exact runWithin_maintains (lasting_coherent _ _) _ _ ih hr

/-- Whatever has been registered and emitted, successfully or not: behind the types of the built-in emitters stand
new ones, all different. They are the types of the accepted emitters and those that emitters were drafted for, and
the report has the latter, in the same order, with what the blueprints of their descriptors leave out. Types only
come behind those that are there, and an emitter is refused when its type is there. -/
theorem report_coherent (hg : ({ options } : Generator).Becomes added g) :
    ∃ (new : List TypeName) (types : List Descriptor),
      g.registry.keys = Registry.builtin.keys ++ new ∧ g.registry.keys.Nodup ∧
      new.filter (· ∈ added) = added ∧ new.filter (· ∉ added) = types.map Descriptor.name ∧
      (∀ d ∈ types,
        g.registry.find? d.name = some (.drafted (.ofDescriptor d options.order))) ∧
      g.report.drafted = types.map (·.name.full) ∧ g.report.drafted.Nodup ∧
      g.report.skipped =
        (types.flatMap fun d => (Blueprint.ofDescriptor d options.order).skipped.map
          fun (property, obstacle) => ⟨d.name.full, property, obstacle⟩) ∧
      (∀ e x, g.register e = .error x ↔
        e.typeName ∈ g.registry.keys ∧ x = .duplicateRegistration e.typeName.full) ∧
      ∀ more h, g.Becomes more h → g.registry.keys <+: h.registry.keys := by
  obtain ⟨types, more, h⟩ := hg.coherent
  -- by their names, the drafted types are the new ones that were not accepted from outside
  have hnames : (more.map (·.1)).filter (· ∉ added) = types.map Descriptor.name := by
    rw [List.filter_map]
    refine Eq.trans (congrArg _ h.drafted) ?_
    simp [Descriptor.draftedEntry, Function.comp_def]
  have hnodup : (types.map Descriptor.name).Nodup := by
    have hmore : (more.map (·.1)).Nodup := by
      have hkeys := h.nodup
      rw [h.keys] at hkeys
      exact (List.nodup_append.mp hkeys).2.1
    rw [← hnames]
    exact hmore.filter _
  refine ⟨more.map (·.1), types, h.keys, h.nodup, h.accepted, hnames, ?_, h.reported, ?_, h.skipped,
    fun e x => register_eq_error_iff, ?_⟩
  · intro d hd
    have hentry : d.draftedEntry options.order ∈ g.registry.entries := by
      rw [h.entries]
      have hmem := List.mem_map_of_mem (f := Descriptor.draftedEntry options.order) hd
      rw [← h.drafted] at hmem
      exact List.mem_append_right _ (List.mem_filter.mp hmem).1
    exact Registry.find?_of_mem h.nodup hentry
  · have hfull : g.report.drafted = (types.map Descriptor.name).map TypeName.full := by
      simp [h.reported]
    rw [hfull]
    apply hnodup.map
    intro a b hab
    cases a
    cases b
    simpa using hab
  · intro more' k hk
    obtain ⟨rest, hrest⟩ := hk.entries
    exact ⟨rest.map (·.1), by simp [Registry.keys, hrest]⟩

/-- An album whose cover cannot be read. Emitting it fails, but by then both types are drafted. -/
def album : Object :=
  { cell := 0
    type := { name := ⟨"Demo.Album"⟩, properties := [{ name := "Cover" }, .indexer "Item" 1] } }

def albumHeap : Heap :=
  ⟨#[{ values := [("Cover", .object
        { cell := 1
          type := {
            name := ⟨"Demo.Cover"⟩
            properties := [{ name := "Image" }, .readOnly "Area"] } })] },
    { failures := [("Image", "torn")] }]⟩

def albumCall : Call where
  scope := { heap := albumHeap }
  value := .object album
  base := "album"
  current := { name := "InitializeResources" }
  target := { name := "Dictionary1" }

def gadgetEmitter : Emitter := .touch ⟨"Demo.Gadget"⟩ "Face"

theorem report_coherent_album :
    ∃ g, ({} : Generator).Becomes [⟨"Demo.Gadget"⟩] g ∧
      g.report.drafted = ["Demo.Album", "Demo.Cover"] ∧
      g.report.skipped =
        [⟨"Demo.Album", "Item", .needsArguments⟩, ⟨"Demo.Cover", "Area", .noSetter⟩] ∧
      ∃ (new : List TypeName) (types : List Descriptor),
        g.registry.keys = Registry.builtin.keys ++ new ∧ g.registry.keys.Nodup ∧
        new.filter (· ∈ [⟨"Demo.Gadget"⟩]) = [⟨"Demo.Gadget"⟩] ∧
        new.filter (· ∉ [⟨"Demo.Gadget"⟩]) = types.map Descriptor.name ∧
        (∀ d ∈ types, g.registry.find? d.name = some (.drafted (.ofDescriptor d .name))) ∧
        g.report.drafted = types.map (·.name.full) ∧ g.report.drafted.Nodup ∧
        g.report.skipped =
          (types.flatMap fun d => (Blueprint.ofDescriptor d .name).skipped.map
            fun (property, obstacle) => ⟨d.name.full, property, obstacle⟩) ∧
        (∀ e x, g.register e = .error x ↔
          e.typeName ∈ g.registry.keys ∧ x = .duplicateRegistration e.typeName.full) ∧
        ∀ more h, g.Becomes more h → g.registry.keys <+: h.registry.keys := by
  have hnone : Registry.builtin.find? gadgetEmitter.typeName = none :=
    Option.isNone_iff_eq_none.mp (by decide +kernel)
  have hfirst := Becomes.same.accepts (register_of_find?_eq_none (g := {}) hnone)
  have hrefused := hfirst.refuses (register_eq_error_iff (e := gadgetEmitter).mpr
    ⟨by simp [Registry.keys], rfl⟩)
  have hreport : (emitWithin 4 albumCall.scope albumCall.value albumCall.base
      (({ registry := ⟨Registry.builtin.entries ++ [(gadgetEmitter.typeName, gadgetEmitter)]⟩ } :
        Generator).begin albumCall)).any
      (fun x => !x.1.isOk && x.2.generator.report ==
        ⟨["Demo.Album", "Demo.Cover"],
          [⟨"Demo.Album", "Item", .needsArguments⟩, ⟨"Demo.Cover", "Area", .noSetter⟩]⟩) = true := by
    decide +kernel
  obtain ⟨⟨r, w⟩, hemit, hreport⟩ := (Option.any_eq_true _ _).mp hreport
  simp only [Bool.and_eq_true, beq_iff_eq] at hreport
  have hlast := hrefused.emits hemit
  obtain ⟨hdrafted, hskipped⟩ := Report.mk.inj hreport.2
  exact ⟨w.generator, hlast, hdrafted, hskipped, report_coherent hlast⟩

end Generator

end ResourceCode
