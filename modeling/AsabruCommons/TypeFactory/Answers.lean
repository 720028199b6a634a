import AsabruCommons.TypeFactory.Lookup

/-!
# A name is looked up once

`GetType` loads a plugin only for a name that has no entry, and it leaves an entry for every
name that it answers, be it a null pointer.  So once it has answered a name it never throws for
this name again and never loads anything for it (`answered_once`).  A null pointer gives way to
an instance only if another call, for another name or by `RegisterCommand`, loads a library
with this derived name.

Nothing is asked of the names, of the folders or of what the `create` functions do.
-/

namespace AsabruCommons.TypeFactory

open Run Factory

variable {Ptr : Type}

/-- The instance that a library with this derived name has created. -/
def instanceOf (created : List (Str × Ptr)) (name : Str) : Option Ptr :=
  (created.find? fun c ↦ derivedName c.1 = some name).map Prod.snd

theorem instanceOf_cons (plugin : Str) (a : Ptr) (created : List (Str × Ptr)) (name : Str) :
    instanceOf ((plugin, a) :: created) name =
      if derivedName plugin = some name then some a else instanceOf created name := by
  rw [instanceOf, List.find?_cons]
  by_cases h : derivedName plugin = some name <;> simp [h, instanceOf]

/-! ## Entries stay

An entry may change its pointer, but it is not taken out of the map.
-/

/-- What has an entry keeps one. -/
def Keeps (f g : Factory Ptr) : Prop :=
  ∀ name, (f.commands_map name).isSome → (g.commands_map name).isSome

namespace Keeps

theorem refl (f : Factory Ptr) : Keeps f f := fun _ h ↦ h

theorem trans {f g h : Factory Ptr} (hfg : Keeps f g) (hgh : Keeps g h) : Keeps f h :=
  fun name hname ↦ hgh name (hfg name hname)

theorem put (f : Factory Ptr) (key : Str) (value : Option Ptr) : Keeps f (f.put key value) := by
  intro name hname
  show (Function.update f.commands_map key (some value) name).isSome
  by_cases hkey : name = key
  · subst hkey
    rw [Function.update_self]
    rfl
  · rwa [Function.update_of_ne hkey]

theorem read (f : Factory Ptr) (key : Str) : Keeps f (f.read key).1 := by
  rw [Factory.read]
  split
  · exact refl f
  · exact put f key none

theorem loadLib (f : Factory Ptr) (plugin name : Str) (create : Creation Ptr) :
    Keeps f (f.loadLib plugin name create).1 := by
  cases hheld : f.holds name with
  | some a =>
      rw [loadLib_of_isSome (by rw [hheld]; rfl)]
      exact read f name
  | none =>
      rw [loadLib_of_holds_eq_none hheld]
      cases create with
      | returns a => exact (read f name).trans (put _ name (some a))
      | throws => exact read f name
      | throwsOther => exact read f name

theorem loadPlugin (f : Factory Ptr) (pluginName : Str) (create : Creation Ptr) :
    Keeps f (f.loadPlugin pluginName create).1 := by
  cases hfind : findLib f.libNames pluginName with
  | none =>
      rw [loadPlugin_of_findLib_eq_none hfind]
      exact refl f
  | some plugin =>
      rw [loadPlugin_of_findLib hfind]
      cases derivedName plugin with
      | none => exact refl f
      | some name => exact loadLib f plugin name create

theorem fetch (f : Factory Ptr) (type : Str) (create : Creation Ptr) :
    Keeps f (f.fetch type create).1 := by
  cases hfind : f.commands_map type with
  | some value =>
      rw [fetch_of_find hfind]
      exact refl f
  | none =>
      have hkeeps := loadPlugin f type create
      cases hload : f.loadPlugin type create with
      | mk g r =>
          rw [hload] at hkeeps
          cases r with
          | error e =>
              rw [fetch_of_error hfind hload]
              exact hkeeps
          | ok u =>
              rw [fetch_of_ok hfind hload]
              exact hkeeps.trans (read g type)

end Keeps

/-- A call that answers leaves an entry. -/
theorem entry_of_fetch {f : Factory Ptr} {type : Str} {create : Creation Ptr} {value : Option Ptr}
    (h : (f.fetch type create).2 = .ok value) :
    ((f.fetch type create).1.commands_map type).isSome := by
  rcases fetch_cases f type create with ⟨value', hfind, hf⟩ | ⟨g, -, -, -, -, ⟨e, hf⟩ | hf⟩
  · rw [hf, hfind]
    rfl
  · rw [hf] at h
    cases h
  · rw [hf, read_fst_self]
    rfl

/-! ## Every run -/

/-- The names hold what was created for them, and what was answered has an entry. -/
structure Settled (f : Factory Ptr) : Prop where
  holds : ∀ name, f.holds name = instanceOf f.created name
  entries : ∀ type value, (type, .ok value) ∈ f.gets → (f.commands_map type).isSome

theorem settled_start (libNames : OrderedMap Str Unit) : Settled (start libNames : Factory Ptr) :=
  ⟨fun _ ↦ rfl, fun _ _ h ↦ by cases h⟩

theorem Settled.loads {f g : Factory Ptr} (hf : Settled f) (hload : Loads f g)
    (hkeeps : Keeps f g) (hgets : g.gets = f.gets) : Settled g := by
  refine ⟨fun name ↦ ?_, fun type value h ↦ ?_⟩
  · cases hload with
    | kept hholds hcreated => rw [hholds, hcreated, hf.holds]
    | stored plugin key a hname hnone hholds hcreated =>
        rw [hholds, hcreated, instanceOf_cons, hname]
        by_cases hkey : name = key
        · subst hkey
          rw [Function.update_self, if_pos rfl]
        · rw [Function.update_of_ne hkey, if_neg (fun h ↦ hkey (Option.some.inj h).symm), hf.holds]
  · rw [hgets] at h
    exact hkeeps type (hf.entries type value h)

theorem Settled.GetType {f : Factory Ptr} (hf : Settled f) (type : Str) (create : Creation Ptr) :
    Settled (f.GetType type create).1 := by
  have hg := hf.loads (loads_fetch f type create) (Keeps.fetch f type create)
    (frame_fetch f type create).1
  refine ⟨hg.holds, fun name value hmem ↦ ?_⟩
  rcases List.mem_cons.mp hmem with heq | hmem
  · obtain ⟨rfl, hr⟩ := Prod.mk.inj heq
    exact entry_of_fetch hr.symm
  · exact hg.entries name value hmem

theorem Settled.step {f g : Factory Ptr} {e : Event Ptr} (hf : Settled f)
    (hs : TypeFactory.step f e = some g) : Settled g := by
  obtain rfl := Option.some.inj hs
  cases e with
  | updateLibs PLUGINS_FOLDER_PATH globothy =>
      cases PLUGINS_FOLDER_PATH with
      | none => exact hf
      | some pluginsFolderPath => exact hf.loads (.kept rfl rfl) (.refl f) rfl
  | RegisterCommand commandName create =>
      rw [call, RegisterCommand_fst]
      exact hf.loads (loads_loadPlugin f commandName create)
        (Keeps.loadPlugin f commandName create) (frame_loadPlugin f commandName create).1
  | GetCommand commandName create => exact hf.GetType commandName create
  | Dispatch archetype create PreExecute Execute =>
      rw [call, Dispatch_fst]
      exact hf.GetType archetype create

/-- For a name with an entry, `GetType` reads what was created for it. -/
theorem Settled.GetType_of_entry {f : Factory Ptr} (hf : Settled f) {type : Str}
    (h : (f.commands_map type).isSome) (create : Creation Ptr) :
    f.GetType type create =
      ({ f with gets := (type, .ok (instanceOf f.created type)) :: f.gets },
        .ok (instanceOf f.created type)) := by
  obtain ⟨value, hvalue⟩ := Option.isSome_iff_exists.mp h
  have hinstance : instanceOf f.created type = value := by
    rw [← hf.holds, Factory.holds, hvalue, Option.join_some]
  rw [Factory.GetType, fetch_of_find hvalue, hinstance]

/-- **A name is looked up once.**  After any run in which `GetType` has answered a name, with an
instance or with a null pointer, it answers this name with the instance that a library with this
derived name has created by then, or with a null pointer if there is none.  It throws nothing,
loads nothing and calls no `create` function.  If the earlier answer was an instance, the answer
is still the same. -/
theorem answered_once (libNames : OrderedMap Str Unit) (es : List (Event Ptr)) (f : Factory Ptr)
    (hrun : run step (start libNames) es = some f) (type : Str) (value : Option Ptr)
    (hget : (type, .ok value) ∈ f.gets) (create : Creation Ptr) :
    f.GetType type create =
        ({ f with gets := (type, .ok (instanceOf f.created type)) :: f.gets },
          .ok (instanceOf f.created type)) ∧
      (value.isSome → instanceOf f.created type = value) := by
  have hsettled : Settled f :=
    run_invariant (fun _ _ _ hf hs ↦ Settled.step hf hs) (settled_start libNames) hrun
  have hsound : Sound f :=
    run_invariant (fun _ _ _ hf hs ↦ Sound.step hf hs) (sound_start libNames) hrun
  refine ⟨hsettled.GetType_of_entry (hsettled.entries type value hget) create, fun hvalue ↦ ?_⟩
  obtain ⟨a, rfl⟩ := Option.isSome_iff_exists.mp hvalue
  rw [← hsettled.holds, hsound.got type a hget]

/-- The library is loaded under another name after its own name was answered with a null
pointer. -/
def lateRun : List (Event Nat) :=
  [.GetCommand "Log".toList (.returns 1), .Dispatch "Log".toList (.returns 2) (· = 2) (· = 2),
    .RegisterCommand "libLog".toList (.returns 3)]

theorem answered_once_late :
    ∃ f : Factory Nat, run step (start logLibraries) lateRun = some f ∧
      ("Log".toList, .ok none) ∈ f.gets ∧
      (f.GetType "Log".toList (.returns 4)).2 = .ok (some 3) ∧
      (f.GetType "Log".toList (.returns 4)).1.created = f.created := by
  obtain ⟨f, hf⟩ : ∃ f : Factory Nat, run step (start logLibraries) lateRun = some f := ⟨_, rfl⟩
  have hnull : ("Log".toList, .ok none) ∈ f.gets := by
    obtain rfl := Option.some.inj hf
    exact List.mem_cons_self
  have hget := (answered_once logLibraries lateRun f hf _ _ hnull (.returns 4)).1
  have hinstance : instanceOf f.created "Log".toList = some 3 := by
    obtain rfl := Option.some.inj hf
    rfl
  rw [hinstance] at hget
  exact ⟨f, hf, hnull, by rw [hget], by rw [hget]⟩

end AsabruCommons.TypeFactory
