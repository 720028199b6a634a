import AsabruCommons.TypeFactory.Basic

/-!
# Plugins are singletons

Three functions of the dispatcher load plugins, and they do so under the name that was
asked for as well as under the derived one.  The invariant behind all of them is that
the created instances are exactly accounted for by what the names hold (`Sound`): a
library creates an instance only for a name that holds none, and a name that holds an
instance keeps it.
-/

namespace AsabruCommons.TypeFactory

open Run Factory

variable {Ptr : Type}

/-- The libraries that share a derived name have returned at most one instance, and a
name that was answered with an instance is answered with it from then on. -/
structure Singletons (f : Factory Ptr) : Prop where
  once : ∀ name, f.created.countP (fun c ↦ derivedName c.1 = some name) ≤ 1
  stable : f.gets.Pairwise fun later earlier ↦
    later.1 = earlier.1 → ∀ a, earlier.2 = .ok (some a) → later.2 = .ok (some a)

/-- Every created instance is stored under its name, and so is every instance that was
returned. -/
structure Sound (f : Factory Ptr) : Prop extends Singletons f where
  recorded : ∀ c ∈ f.created, ∃ name, derivedName c.1 = some name ∧ f.holds name = some c.2
  got : ∀ type a, (type, .ok (some a)) ∈ f.gets → f.holds type = some a

theorem sound_start (libNames : OrderedMap Str Unit) : Sound (start libNames : Factory Ptr) where
  once := fun name ↦ Nat.zero_le 1
  stable := .nil
  recorded := fun c hc ↦ by cases hc
  got := fun type a h ↦ by cases h

/-! ## What each function preserves -/

/-- An instance is only created for a name of which there is none. -/
theorem Sound.loads {f g : Factory Ptr} (hf : Sound f) (hload : Loads f g)
    (hgets : g.gets = f.gets) : Sound g := by
  have hgot : ∀ type a, (type, .ok (some a)) ∈ g.gets → g.holds type = some a := by
    intro type a h
    rw [hgets] at h
    exact hload.holds (hf.got type a h)
  have hkeep : ∀ c ∈ f.created, ∃ name, derivedName c.1 = some name ∧ g.holds name = some c.2 := by
    intro c hc
    obtain ⟨name, hname, hc⟩ := hf.recorded c hc
    exact ⟨name, hname, hload.holds hc⟩
  cases hload with
  | kept hholds hcreated =>
      rw [← hcreated] at hkeep
      exact ⟨⟨by rw [hcreated]; exact hf.once, by rw [hgets]; exact hf.stable⟩, hkeep, hgot⟩
  | stored plugin key a hname hnone hholds hcreated =>
      have hnew : f.created.countP (fun c ↦ derivedName c.1 = some key) = 0 := by
        rw [List.countP_eq_zero]
        intro c hc hkey
        obtain ⟨name, hname, hc⟩ := hf.recorded c hc
        rw [decide_eq_true_eq, hname, Option.some.injEq] at hkey
        rw [hkey, hnone] at hc
        cases hc
      refine ⟨⟨fun name ↦ ?_, by rw [hgets]; exact hf.stable⟩, fun c hc ↦ ?_, hgot⟩
      · rw [hcreated, List.countP_cons]
        by_cases hkey : name = key
        · subst hkey
          rw [hnew, hname]
          simp
        · have hne : derivedName plugin ≠ some name := by
            rw [hname]
            exact fun h ↦ hkey (Option.some.inj h).symm
          simpa [hne] using hf.once name
      · rw [hcreated] at hc
        rcases List.mem_cons.mp hc with rfl | hc
        · refine ⟨key, hname, ?_⟩
          rw [hholds, Function.update_self]
        · exact hkeep c hc

theorem Sound.GetType {f : Factory Ptr} (hf : Sound f) (type : Str) (create : Creation Ptr) :
    Sound (f.GetType type create).1 := by
  have hgets := (frame_fetch f type create).1
  have hg := hf.loads (loads_fetch f type create) hgets
  refine ⟨⟨hg.once, List.pairwise_cons.mpr ⟨?_, hg.stable⟩⟩, hg.recorded, ?_⟩
  · -- an earlier answer is what the name held when the call was made
    rintro ⟨name, r⟩ hmem hname a ha
    obtain rfl : type = name := hname
    obtain rfl : r = .ok (some a) := ha
    rw [hgets] at hmem
    exact fetch_of_holds (hf.got type a hmem) create
  · intro name a hmem
    rcases List.mem_cons.mp hmem with heq | hmem
    · obtain ⟨rfl, hr⟩ := Prod.mk.inj heq
      exact holds_of_fetch hr.symm
    · exact hg.got name a hmem

/-- The dispatcher changes the registry as the function that it calls does. -/
theorem RegisterCommand_fst (f : Factory Ptr) (commandName : Str) (create : Creation Ptr) :
    (CommandDispatcher.RegisterCommand f commandName create).1 =
      (f.loadPlugin commandName create).1 := by
  rw [CommandDispatcher.RegisterCommand]
  split
  · next h => rw [h]
  · next h => rw [h]
  · next h => rw [h]

theorem Dispatch_fst (f : Factory Ptr) (archetype : Str) (create : Creation Ptr)
    (PreExecute Execute : Ptr → Bool) :
    (CommandDispatcher.Dispatch f archetype create PreExecute Execute).1 =
      (f.GetType archetype create).1 := by
  rw [CommandDispatcher.Dispatch]
  split
  · next h => rw [h]
  · next h => rw [h]
  · next h => rw [h]

theorem Sound.step {f g : Factory Ptr} {e : Event Ptr} (hf : Sound f)
    (hs : TypeFactory.step f e = some g) : Sound g := by
  obtain rfl := Option.some.inj hs
  cases e with
  | updateLibs PLUGINS_FOLDER_PATH globothy =>
      cases PLUGINS_FOLDER_PATH with
      | none => exact hf
      | some pluginsFolderPath => exact hf.loads (.kept rfl rfl) rfl
  | RegisterCommand commandName create =>
      rw [call, RegisterCommand_fst]
      exact hf.loads (loads_loadPlugin f commandName create)
        (frame_loadPlugin f commandName create).1
  | GetCommand commandName create => exact hf.GetType commandName create
  | Dispatch archetype create PreExecute Execute =>
      rw [call, Dispatch_fst]
      exact hf.GetType archetype create

/-! ## Every run -/

/-- **Singletons.**  Whatever is called, and with whatever names, in the registry of any
set of libraries. -/
theorem singletons_of_run (libNames : OrderedMap Str Unit) (es : List (Event Ptr))
    (f : Factory Ptr) (hrun : run step (start libNames) es = some f) : Singletons f :=
  (run_invariant (fun _ _ _ hf hs ↦ Sound.step hf hs) (sound_start libNames) hrun).toSingletons

/-- A plugin is registered before its library is there, then under its own name and
under another one, and at last it is asked for. -/
def registerRun : List (Event Nat) :=
  [.RegisterCommand "Foo".toList (.returns 1),
   .updateLibs (some "/p".toList) (fun _ ↦ ["/p/libFoo.so".toList]),
   .RegisterCommand "Foo".toList .throws, .RegisterCommand "ibFo".toList (.returns 2),
   .GetCommand "Foo".toList (.returns 3), .Dispatch "Foo".toList (.returns 4) (· = 2) (· = 2)]

/-- One instance is created, and both calls of `GetType` are answered with it. -/
theorem singletons_registered :
    ∃ f : Factory Nat, run step (start .empty) registerRun = some f ∧ Singletons f ∧
      f.created = [("/p/libFoo.so".toList, 2)] ∧
      f.gets = [("Foo".toList, .ok (some 2)), ("Foo".toList, .ok (some 2))] := by
  obtain ⟨f, hf⟩ : ∃ f, run step (start .empty) registerRun = some f := ⟨_, rfl⟩
  refine ⟨f, hf, singletons_of_run .empty registerRun f hf, ?_⟩
  obtain rfl := Option.some.inj hf
  exact ⟨rfl, rfl⟩

end AsabruCommons.TypeFactory
