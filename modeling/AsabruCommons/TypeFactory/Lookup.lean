import AsabruCommons.TypeFactory.Singleton

/-!
# Finding the right plugin

`GetType` looks a library up by a substring of its path, stores what it creates under
the name derived from that path, and reads the name that was asked for.  So it returns
an instance for a name that was not asked for before exactly when the first path that
contains the name is one that the name is derived from (`fetch_finds_iff`).  Otherwise
the name gets a null pointer, which later calls trust, or the call throws.

Here the `create` functions return, and the libraries are fixed.
-/

namespace AsabruCommons.TypeFactory

open Run Factory

variable {Ptr : Type}

/-- Some library has this derived name. -/
def Offers (libNames : OrderedMap Str Unit) (type : Str) : Prop :=
  ∃ lib ∈ libNames.entries, derivedName lib.1 = some type

instance (libNames : OrderedMap Str Unit) (type : Str) : Decidable (Offers libNames type) :=
  inferInstanceAs (Decidable (∃ lib ∈ libNames.entries, derivedName lib.1 = some type))

/-- A call of `GetType`, with the instance that a `create` function would return. -/
def getStep (f : Factory Ptr) (e : Str × Ptr) : Option (Factory Ptr) :=
  some (f.GetType e.1 (.returns e.2)).1

/-- Every call that asked for the derived name of a library was answered with an
instance that a library with this name created. -/
def FindsRight (f : Factory Ptr) : Prop :=
  ∀ get ∈ f.gets, Offers f.libNames get.1 →
    ∃ c ∈ f.created, derivedName c.1 = some get.1 ∧ get.2 = .ok (some c.2)

/-- The name holds an instance, or it has no entry and the library that is found for it
is one with this derived name. -/
def Finds (f : Factory Ptr) (type : Str) : Prop :=
  (f.holds type).isSome ∨
    f.commands_map type = none ∧ (findLib f.libNames type).bind derivedName = some type

instance (f : Factory Ptr) (type : Str) : Decidable (Finds f type) :=
  decidable_of_iff ((f.holds type).isSome ∨
    (f.commands_map type).isNone ∧ (findLib f.libNames type).bind derivedName = some type)
    (by rw [Option.isNone_iff_eq_none, Finds])

/-! ## One call -/

theorem read_fst_of_ne (f : Factory Ptr) {k key : Str} (h : k ≠ key) :
    (f.read key).1.commands_map k = f.commands_map k := by
  rw [Factory.read]
  split
  · rfl
  · exact Function.update_of_ne h ..

theorem read_fst_self (f : Factory Ptr) (key : Str) :
    (f.read key).1.commands_map key = some (f.holds key) := by
  rw [Factory.read, holds]
  split
  · next value h => rw [h, Option.join_some]
  · next h =>
      rw [h, Option.join_none]
      exact Function.update_self ..

/-- With a `create` function that returns, loading a library does not fail.  Its name
then holds an instance, and the other names keep their entries. -/
theorem loadLib_returns (f : Factory Ptr) (plugin name : Str) (a : Ptr) :
    ∃ g, f.loadLib plugin name (.returns a) = (g, .ok ()) ∧
      (∃ b, g.commands_map name = some (some b)) ∧
      ∀ key, key ≠ name → g.commands_map key = f.commands_map key := by
  cases hheld : f.holds name with
  | some b =>
      refine ⟨_, loadLib_of_isSome (by rw [hheld]; rfl) .., ⟨b, ?_⟩, fun key hne ↦ ?_⟩
      · rw [read_fst_self, hheld]
      · exact read_fst_of_ne f hne
  | none =>
      refine ⟨_, loadLib_of_holds_eq_none hheld .., ⟨a, Function.update_self ..⟩, fun key hne ↦ ?_⟩
      exact (Function.update_of_ne hne ..).trans (read_fst_of_ne f hne)

/-- Loading a plugin does nothing if no name is derived from the path that is found, and
otherwise gives an instance to that name. -/
theorem loadPlugin_returns (f : Factory Ptr) (pluginName : Str) (a : Ptr) :
    ((findLib f.libNames pluginName).bind derivedName = none ∧
        ∃ r, f.loadPlugin pluginName (.returns a) = (f, r)) ∨
      ∃ name g, (findLib f.libNames pluginName).bind derivedName = some name ∧
        f.loadPlugin pluginName (.returns a) = (g, .ok ()) ∧
        (∃ b, g.commands_map name = some (some b)) ∧
        ∀ key, key ≠ name → g.commands_map key = f.commands_map key := by
  cases hlib : findLib f.libNames pluginName with
  | none => exact .inl ⟨rfl, _, loadPlugin_of_findLib_eq_none hlib _⟩
  | some plugin =>
      have hload := loadPlugin_of_findLib hlib (.returns a)
      cases hname : derivedName plugin with
      | none =>
          rw [hname] at hload
          exact .inl ⟨hname, _, hload⟩
      | some name =>
          rw [hname] at hload
          obtain ⟨g, hg, hinstance, hother⟩ := loadLib_returns f plugin name a
          exact .inr ⟨name, g, hname, hload.trans hg, hinstance, hother⟩

/-- **What is found.**  When `GetType` returns an instance. -/
theorem fetch_finds_iff (f : Factory Ptr) (type : Str) (a : Ptr) :
    (∃ b, (f.fetch type (.returns a)).2 = .ok (some b)) ↔ Finds f type := by
  cases hfind : f.commands_map type with
  | some value =>
      rw [fetch_of_find hfind, Finds, holds, hfind, Option.join_some]
      simp [Option.isSome_iff_exists]
  | none =>
      have hnone : f.holds type = none := holds_of_isNone (by rw [hfind]; rfl)
      rw [Finds, hnone, hfind]
      rcases loadPlugin_returns f type a with ⟨hname, r, hload⟩ |
        ⟨name, g, hname, hload, ⟨b, hb⟩, hother⟩
      · cases r with
        | error e =>
            rw [fetch_of_error hfind hload]
            simp [hname]
        | ok u =>
            rw [fetch_of_ok hfind hload, hnone]
            simp [hname]
      · rw [fetch_of_ok hfind hload]
        by_cases hkey : type = name
        · subst hkey
          have hholds : g.holds type = some b := by rw [holds, hb, Option.join_some]
          simp [hname, hholds]
        · have hholds : g.holds type = none := by rw [← hnone, holds, holds, hother type hkey]
          simpa [hname, hholds] using Ne.symm hkey

/-- What a name holds was created by a library with this name. -/
def Accounted (f : Factory Ptr) : Prop :=
  ∀ name a, f.holds name = some a → ∃ c ∈ f.created, derivedName c.1 = some name ∧ c.2 = a

theorem Accounted.loads {f g : Factory Ptr} (hf : Accounted f) (h : Loads f g) : Accounted g := by
  intro name a ha
  cases h with
  | kept hholds hcreated =>
      rw [hholds] at ha
      rw [hcreated]
      exact hf name a ha
  | stored plugin key b hname hnone hholds hcreated =>
      rw [hcreated]
      rw [hholds] at ha
      by_cases hkey : name = key
      · subst hkey
        rw [Function.update_self] at ha
        exact ⟨(plugin, b), List.mem_cons_self, hname, Option.some.inj ha⟩
      · rw [Function.update_of_ne hkey] at ha
        obtain ⟨c, hc, h⟩ := hf name a ha
        exact ⟨c, List.mem_cons_of_mem _ hc, h⟩

/-! ## Every run -/

/-- Every call for an offered name was answered with some instance. -/
def Answered (f : Factory Ptr) : Prop :=
  ∀ get ∈ f.gets, Offers f.libNames get.1 → ∃ a, get.2 = .ok (some a)

/-- An instance that was returned is the right one. -/
theorem answered_iff {f : Factory Ptr} (hf : Sound f) (ha : Accounted f) :
    Answered f ↔ FindsRight f := by
  refine forall₂_congr fun get hget ↦ forall_congr' fun _ ↦ ⟨?_, ?_⟩
  · rintro ⟨a, heq⟩
    have hmem : (get.1, .ok (some a)) ∈ f.gets := by
      rw [← heq]
      exact hget
    obtain ⟨c, hc, hname, rfl⟩ := ha get.1 a (hf.got get.1 a hmem)
    exact ⟨c, hc, hname, heq⟩
  · rintro ⟨c, -, -, heq⟩
    exact ⟨c.2, heq⟩

/-- The next call is answered well exactly when the name is found. -/
theorem answered_step {f g : Factory Ptr} {e : Str × Ptr} (hs : getStep f e = some g) :
    Answered g ↔ Answered f ∧ (Offers f.libNames e.1 → Finds f e.1) := by
  obtain rfl := Option.some.inj hs
  obtain ⟨hgets, hlibs⟩ := frame_fetch f e.1 (.returns e.2)
  rw [← fetch_finds_iff f e.1 e.2, and_comm]
  show (∀ get ∈ (e.1, (f.fetch e.1 (.returns e.2)).2) :: (f.fetch e.1 (.returns e.2)).1.gets,
    Offers (f.fetch e.1 (.returns e.2)).1.libNames get.1 → _) ↔ _
  rw [List.forall_mem_cons, hgets, hlibs]
  rfl

/-- **Which plugins are found.**  In a run of `GetType` every call for the derived name
of a library returns an instance of such a library exactly when each of these calls
finds an instance under the name, or no entry and a library with this derived name as
the first one whose path contains it. -/
theorem findsRight_iff (libNames : OrderedMap Str Unit) (es : List (Str × Ptr)) (f : Factory Ptr)
    (hrun : run getStep (start libNames) es = some f) :
    Along getStep (fun f e ↦ Offers f.libNames e.1 → Finds f e.1) (start libNames) es ↔
      FindsRight f := by
  have hinv : ∀ (f : Factory Ptr) (e : Str × Ptr) (g : Factory Ptr), Sound f ∧ Accounted f →
      getStep f e = some g → Sound g ∧ Accounted g := by
    intro f e g hf hs
    obtain rfl := Option.some.inj hs
    refine ⟨hf.1.GetType e.1 (.returns e.2), hf.2.loads ?_⟩
    exact (loads_fetch f e.1 (.returns e.2)).congr rfl rfl
  have hstart : Sound (start libNames : Factory Ptr) ∧ Accounted (start libNames : Factory Ptr) :=
    ⟨sound_start libNames, fun name a h ↦ by cases h⟩
  obtain ⟨hsound, hacc⟩ := run_invariant hinv hstart hrun
  rw [← answered_iff hsound hacc]
  refine along_iff_end (K := Answered) hinv ?_ ?_ hstart (fun get hget ↦ by cases hget) hrun
  · intro f e g _ hf hs
    rw [answered_step hs]
    exact and_iff_right hf
  · intro f e g _ hf hs hg
    exact hf ((answered_step hs).mp hg).1

/-- The path of the first library contains the name of the second one. -/
def logLibraries : OrderedMap Str Unit :=
  OrderedMap.empty.insertAll
    [("/plugins/libLog.so".toList, ()), ("/plugins/libFileLog.so".toList, ())]

theorem findsRight_shadowed :
    ∃ f : Factory Nat, run getStep (start logLibraries) [("Log".toList, 1)] = some f ∧
      ¬ FindsRight f := by
  refine ⟨_, rfl, fun h ↦ ?_⟩
  obtain ⟨c, -, -, heq⟩ :=
    h _ List.mem_cons_self ⟨("/plugins/libLog.so".toList, ()), by decide, rfl⟩
  cases heq

theorem findsRight_logs :
    ∃ f : Factory Nat, run getStep (start logLibraries) [("FileLog".toList, 1)] = some f ∧
      FindsRight f := by
  obtain ⟨f, hf⟩ : ∃ f : Factory Nat,
      run getStep (start logLibraries) [("FileLog".toList, 1)] = some f := ⟨_, rfl⟩
  exact ⟨f, hf, (findsRight_iff logLibraries _ f hf).mp (by decide)⟩

/-! ## Every history

When the first path that contains a derived name is always one that it is derived from,
no null pointer is ever stored under the name of a library. -/

/-- Loading leaves no new null pointer. -/
theorem null_loadPlugin {f : Factory Ptr} {pluginName key : Str} {a : Ptr}
    (h : (f.loadPlugin pluginName (.returns a)).1.commands_map key = some none) :
    f.commands_map key = some none := by
  rcases loadPlugin_returns f pluginName a with ⟨-, r, hload⟩ |
    ⟨name, g, -, hload, ⟨b, hb⟩, hother⟩
  · rwa [hload] at h
  · rw [hload] at h
    by_cases hkey : key = name
    · rw [hkey, hb] at h
      cases h
    · rwa [← hother key hkey]

/-- A call leaves a new null pointer only under a name that it does not find. -/
theorem null_fetch {f : Factory Ptr} {type key : Str} {a : Ptr}
    (h : (f.fetch type (.returns a)).1.commands_map key = some none) :
    f.commands_map key = some none ∨ key = type ∧ ¬ Finds f type := by
  cases hfind : f.commands_map type with
  | some value =>
      rw [fetch_of_find hfind] at h
      exact .inl h
  | none =>
      cases hload : f.loadPlugin type (.returns a) with
      | mk g r =>
          have hnull : g.commands_map key = some none → f.commands_map key = some none := by
            have hg : (f.loadPlugin type (.returns a)).1 = g := congrArg Prod.fst hload
            rw [← hg]
            exact null_loadPlugin
          cases r with
          | error e =>
              rw [fetch_of_error hfind hload] at h
              exact .inl (hnull h)
          | ok u =>
              have hfetch := fetch_of_ok hfind hload
              rw [hfetch] at h
              by_cases hkey : key = type
              · subst hkey
                rw [read_fst_self, Option.some.injEq] at h
                refine .inr ⟨rfl, fun hfinds ↦ ?_⟩
                obtain ⟨b, hb⟩ := (fetch_finds_iff f key a).mpr hfinds
                rw [hfetch, h] at hb
                cases hb
              · rw [read_fst_of_ne g hkey] at h
                exact .inl (hnull h)

/-- No null pointer is stored under a name that these libraries offer. -/
structure Clean (libNames : OrderedMap Str Unit) (f : Factory Ptr) : Prop where
  libs : f.libNames = libNames
  null : ∀ key, f.commands_map key = some none → ¬ Offers libNames key

section

variable {libNames : OrderedMap Str Unit} {f g : Factory Ptr}
  (hlibs : ∀ type, Offers libNames type → (findLib libNames type).bind derivedName = some type)

include hlibs

theorem Clean.finds (hf : Clean libNames f) {type : Str} (h : Offers f.libNames type) :
    Finds f type := by
  rw [hf.libs] at h
  cases hfind : f.commands_map type with
  | none =>
      refine .inr ⟨hfind, ?_⟩
      rw [hf.libs]
      exact hlibs type h
  | some value =>
      cases value with
      | none => exact absurd h (hf.null type hfind)
      | some a =>
          apply Or.inl
          rw [holds, hfind]
          rfl

theorem Clean.step (hf : Clean libNames f) {e : Str × Ptr} (hs : getStep f e = some g) :
    Clean libNames g := by
  obtain rfl := Option.some.inj hs
  refine ⟨(frame_fetch f e.1 (.returns e.2)).2.trans hf.libs, fun key hkey hoffers ↦ ?_⟩
  rcases null_fetch hkey with hkey | ⟨rfl, hno⟩
  · exact hf.null key hkey hoffers
  · rw [← hf.libs] at hoffers
    exact hno (hf.finds hlibs hoffers)

end

/-- **Which sets of libraries work.**  Every run of `GetType` is answered well exactly
when, for each derived name, the first path that contains it is one that it is derived
from. -/
theorem findsRight_all_iff [Inhabited Ptr] (libNames : OrderedMap Str Unit) :
    (∀ (es : List (Str × Ptr)) f, run getStep (start libNames) es = some f → FindsRight f) ↔
      ∀ type, Offers libNames type → (findLib libNames type).bind derivedName = some type := by
  constructor
  · intro h type hoffers
    have hrun : run getStep (start libNames) [(type, (default : Ptr))] =
        some ((start libNames).GetType type (.returns default)).1 := rfl
    obtain ⟨hfinds, -⟩ := (findsRight_iff libNames _ _ hrun).mpr (h _ _ hrun)
    rcases hfinds hoffers with hholds | ⟨-, hlib⟩
    · cases hholds
    · exact hlib
  · intro h es f hrun
    have hclean : Along getStep (fun f e ↦ Offers f.libNames e.1 → Finds f e.1)
        (start libNames) es := by
      refine (along_congr (I := Clean libNames) (G := fun _ _ ↦ True) (Q := fun _ _ ↦ True)
        (fun f e g hf _ hs ↦ hf.step h hs) (fun f e hf _ ↦ iff_true_intro (hf.finds h))
        ⟨rfl, fun key hkey ↦ by cases hkey⟩ (along_true ..)).mpr (along_true ..)
    exact (findsRight_iff libNames es f hrun).mp hclean

end AsabruCommons.TypeFactory
