import AsabruCommons.Basic
import AsabruCommons.Lines
import AsabruCommons.OrderedMap
import AsabruCommons.Run
import AsabruCommons.Search
import Mathlib.Data.Char
import Mathlib.Data.List.Lex
import Mathlib.Logic.Function.Basic

/-!
# The plugin registry

A `TypeFactory` knows the paths of the plugin libraries and keeps the instances that
their `create` functions return.  `loadPlugin` looks a library up by a substring of
its path, and stores the instance under a name that is derived from the path:
`/plugins/libfooBar.so` is stored as `FooBar`.  `GetType` loads a plugin when it has
no entry for the requested name, and then reads the entry with `operator[]`, which
inserts a null pointer if there is still none.

`dlopen` and `dlsym` are taken to succeed.  What a `create` function does when it is
called is an argument: it returns an instance, or it throws, and it does not call the
registry.  Instances are non-null pointers of an arbitrary type `Ptr`.  A path has no
zero byte.
-/

namespace AsabruCommons.TypeFactory

open Lines Search

/-! ## The names of libraries -/

/-- `basename` of `libgen.h` -/
def basename (path : Str) : Str :=
  if path = [] then ['.']
  else
    match path.rdropWhile (· = '/') with
    | [] => ['/']
    | path => path.rtakeWhile (· ≠ '/')

/-- `none` where `substr` throws `std::out_of_range`.  The second component begins
with the upper-cased first character of the first one. -/
def libnameothy (path : Str) : Option (Str × Str) := do
  let token ← (lines '.' (basename path)).head?
  let libname ← substr token 3 none
  let rest ← substr libname 1 none
  let first ← libname.head?
  return (libname, first.toUpper :: rest)

/-- The name under which the instance of a library is stored. -/
def derivedName (path : Str) : Option Str := (libnameothy path).map Prod.snd

/-! ## The registry -/

/-- What a `create` function does. -/
inductive Creation (Ptr : Type) where
  | returns (a : Ptr)
  /-- It throws something derived from `std::exception`. -/
  | throws
  /-- It throws something else. -/
  | throwsOther
deriving DecidableEq

/-- What the member functions throw. -/
inductive Exception where
  | runtime_error (what : Str)
  /-- What a `create` function threw, when it is not a `std::exception`. -/
  | other
deriving DecidableEq

def folderMissing : Exception :=
  .runtime_error "PLUGINS_FOLDER_PATH environment variable is missing".toList

def notAvailable : Exception := .runtime_error "Plugin is not available!".toList

/-- In `commands_map` the inner `none` is the null pointer.  The set of library names
is sorted, so it is kept as the keys of a map. -/
structure Factory (Ptr : Type) where
  commands_map : Str → Option (Option Ptr)
  libNames : OrderedMap Str Unit
  /-- History: the instances that `create` functions returned, with the paths of their
  libraries, from the last one to the first. -/
  created : List (Str × Ptr)
  /-- History: what `GetType` was asked for and what it did, from the last call to the
  first. -/
  gets : List (Str × Except Exception (Option Ptr))

namespace Factory

variable {Ptr : Type}

/-- The registry of these libraries before any call. -/
def start (libNames : OrderedMap Str Unit) : Factory Ptr := ⟨fun _ ↦ none, libNames, [], []⟩

/-- Here `PLUGINS_FOLDER_PATH` is the environment variable, if it is set. -/
def updateLibs (f : Factory Ptr) (PLUGINS_FOLDER_PATH : Option Str)
    (globothy : Str → List Str) : Factory Ptr × Except Exception Unit :=
  match PLUGINS_FOLDER_PATH with
  | none => (f, .error folderMissing)
  | some pluginsFolderPath =>
      let filenames := globothy (pluginsFolderPath ++ "/*.so".toList)
      ({ f with libNames := f.libNames.insertAll (filenames.map fun plugin ↦ (plugin, ())) },
        .ok ())

/-- `commands_map[key] = value` -/
def put (f : Factory Ptr) (key : Str) (value : Option Ptr) : Factory Ptr :=
  { f with commands_map := Function.update f.commands_map key (some value) }

/-- `commands_map[key]`, read. -/
def read (f : Factory Ptr) (key : Str) : Factory Ptr × Option Ptr :=
  match f.commands_map key with
  | some value => (f, value)
  | none => (f.put key none, none)

/-- The first library, in the order of the paths, whose path contains the name. -/
def findLib (libNames : OrderedMap Str Unit) (pluginName : Str) : Option Str :=
  (libNames.entries.find? fun p ↦ (find pluginName p.1).isSome).map Prod.fst

/-- The rest of `loadPlugin` for the library that was found and the name derived from
its path.  Here `create` is what the `create` function of the library would do. -/
def loadLib (f : Factory Ptr) (plugin name : Str) (create : Creation Ptr) :
    Factory Ptr × Except Exception Unit :=
  let g := (f.read name).1
  if (f.read name).2.isSome then (g, .ok ())
  else
    match create with
    | .returns a => ({ g.put name (some a) with created := (plugin, a) :: g.created }, .ok ())
    | .throws => (g, .ok ())
    | .throwsOther => (g, .error .other)

def loadPlugin (f : Factory Ptr) (pluginName : Str) (create : Creation Ptr) :
    Factory Ptr × Except Exception Unit :=
  match findLib f.libNames pluginName with
  | none => (f, .error notAvailable)
  | some plugin =>
      match libnameothy plugin with
      | none => (f, .ok ())
      | some delibbed => f.loadLib plugin delibbed.2 create

/-- The body of `GetType`. -/
def fetch (f : Factory Ptr) (type : Str) (create : Creation Ptr) :
    Factory Ptr × Except Exception (Option Ptr) :=
  let loaded := if (f.commands_map type).isNone then f.loadPlugin type create else (f, .ok ())
  match loaded.2 with
  | .error e => (loaded.1, .error e)
  | .ok () => ((loaded.1.read type).1, .ok (loaded.1.read type).2)

def GetType (f : Factory Ptr) (type : Str) (create : Creation Ptr) :
    Factory Ptr × Except Exception (Option Ptr) :=
  let r := f.fetch type create
  ({ r.1 with gets := (type, r.2) :: r.1.gets }, r.2)

end Factory

/-! ## The dispatcher -/

namespace CommandDispatcher

open Factory

variable {Ptr : Type}

def RegisterCommand (typeFactory : Factory Ptr) (commandName : Str) (create : Creation Ptr) :
    Factory Ptr × Except Exception Bool :=
  match typeFactory.loadPlugin commandName create with
  | (f, .ok ()) => (f, .ok true)
  | (f, .error (.runtime_error _)) => (f, .ok false)
  | (f, .error .other) => (f, .error .other)

def GetCommand (typeFactory : Factory Ptr) (commandName : Str) (create : Creation Ptr) :
    Factory Ptr × Except Exception (Option Ptr) :=
  typeFactory.GetType commandName create

/-- The two functions say what the member functions of a command return. -/
def Dispatch (typeFactory : Factory Ptr) (archetype : Str) (create : Creation Ptr)
    (PreExecute Execute : Ptr → Bool) : Factory Ptr × Except Exception Bool :=
  match typeFactory.GetType archetype create with
  | (f, .error e) => (f, .error e)
  | (f, .ok none) => (f, .ok false)
  | (f, .ok (some command)) => (f, .ok (PreExecute command && Execute command))

end CommandDispatcher

inductive Event (Ptr : Type) where
  | updateLibs (PLUGINS_FOLDER_PATH : Option Str) (globothy : Str → List Str)
  | RegisterCommand (commandName : Str) (create : Creation Ptr)
  | GetCommand (commandName : Str) (create : Creation Ptr)
  | Dispatch (archetype : Str) (create : Creation Ptr) (PreExecute Execute : Ptr → Bool)

/-- The registry after a call. -/
def call {Ptr : Type} (f : Factory Ptr) : Event Ptr → Factory Ptr
  | .updateLibs PLUGINS_FOLDER_PATH globothy => (f.updateLibs PLUGINS_FOLDER_PATH globothy).1
  | .RegisterCommand commandName create =>
      (CommandDispatcher.RegisterCommand f commandName create).1
  | .GetCommand commandName create => (CommandDispatcher.GetCommand f commandName create).1
  | .Dispatch archetype create PreExecute Execute =>
      (CommandDispatcher.Dispatch f archetype create PreExecute Execute).1

/-- Every call is possible at any time. -/
def step {Ptr : Type} (f : Factory Ptr) (e : Event Ptr) : Option (Factory Ptr) := some (call f e)

/-! ## What a call changes

All that matters of `commands_map` is which instance a name holds.  Reading leaves
that alone, and loading a plugin can only give an instance to a name that has none.
-/

namespace Factory

variable {Ptr : Type}

/-- The instance that is stored under a name. -/
def holds (f : Factory Ptr) (key : Str) : Option Ptr := (f.commands_map key).join

theorem holds_of_isNone {f : Factory Ptr} {key : Str} (h : (f.commands_map key).isNone) :
    f.holds key = none := by
  rw [holds, Option.isNone_iff_eq_none.mp h, Option.join_none]

theorem holds_put (f : Factory Ptr) (key : Str) (value : Option Ptr) :
    (f.put key value).holds = Function.update f.holds key value := by
  funext k
  by_cases hk : k = key
  · subst hk
    simp [holds, put]
  · simp [holds, put, hk]

theorem read_snd (f : Factory Ptr) (key : Str) : (f.read key).2 = f.holds key := by
  rw [read, holds]
  cases f.commands_map key with
  | none => rfl
  | some value => rfl

@[simp] theorem holds_read (f : Factory Ptr) (key : Str) : (f.read key).1.holds = f.holds := by
  rw [read]
  split
  · rfl
  · next hnone => rw [holds_put, ← holds_of_isNone (by rw [hnone]; rfl), Function.update_eq_self]

@[simp] theorem created_read (f : Factory Ptr) (key : Str) :
    (f.read key).1.created = f.created := by
  rw [read]
  split
  · rfl
  · rfl

@[simp] theorem gets_read (f : Factory Ptr) (key : Str) : (f.read key).1.gets = f.gets := by
  rw [read]
  split
  · rfl
  · rfl

@[simp] theorem libNames_read (f : Factory Ptr) (key : Str) :
    (f.read key).1.libNames = f.libNames := by
  rw [read]
  split
  · rfl
  · rfl

/-- What loading does to the stored instances: nothing, or one name gets its first. -/
inductive Loads (f g : Factory Ptr) : Prop where
  | kept (hholds : g.holds = f.holds) (hcreated : g.created = f.created)
  | stored (plugin key : Str) (a : Ptr) (hname : derivedName plugin = some key)
      (hnone : f.holds key = none) (hholds : g.holds = Function.update f.holds key (some a))
      (hcreated : g.created = (plugin, a) :: f.created)

theorem Loads.refl (f : Factory Ptr) : Loads f f := .kept rfl rfl

theorem Loads.congr {f g h : Factory Ptr} (hload : Loads f g) (hholds : h.holds = g.holds)
    (hcreated : h.created = g.created) : Loads f h := by
  cases hload with
  | kept hg hc => exact .kept (hholds.trans hg) (hcreated.trans hc)
  | stored plugin key a hname hnone hg hc =>
      exact .stored plugin key a hname hnone (hholds.trans hg) (hcreated.trans hc)

theorem loadLib_of_isSome {f : Factory Ptr} {name : Str} (h : (f.holds name).isSome)
    (plugin : Str) (create : Creation Ptr) :
    f.loadLib plugin name create = ((f.read name).1, .ok ()) := by
  rw [← read_snd] at h
  unfold loadLib
  rw [if_pos h]

/-- The `create` function is called for a name that holds nothing. -/
theorem loadLib_of_holds_eq_none {f : Factory Ptr} {name : Str} (h : f.holds name = none)
    (plugin : Str) (create : Creation Ptr) :
    f.loadLib plugin name create =
      match create with
      | .returns a => ({ (f.read name).1.put name (some a) with
          created := (plugin, a) :: (f.read name).1.created }, .ok ())
      | .throws => ((f.read name).1, .ok ())
      | .throwsOther => ((f.read name).1, .error .other) := by
  rw [← read_snd] at h
  unfold loadLib
  rw [h]
  rfl

theorem loads_loadLib (f : Factory Ptr) {plugin name : Str} (hname : derivedName plugin = some name)
    (create : Creation Ptr) : Loads f (f.loadLib plugin name create).1 := by
  cases hnone : f.holds name with
  | some b =>
      rw [loadLib_of_isSome (by rw [hnone]; rfl)]
      exact .kept (holds_read f name) (created_read f name)
  | none =>
      rw [loadLib_of_holds_eq_none hnone]
      cases create with
      | returns a =>
          apply Loads.stored plugin name a hname hnone
          · show ((f.read name).1.put name (some a)).holds = _
            rw [holds_put, holds_read]
          · show (plugin, a) :: (f.read name).1.created = _
            rw [created_read]
      | throws => exact .kept (holds_read f name) (created_read f name)
      | throwsOther => exact .kept (holds_read f name) (created_read f name)

/-- The name that is derived from the path of the library decides what is loaded. -/
theorem loadPlugin_of_findLib {f : Factory Ptr} {pluginName plugin : Str}
    (h : findLib f.libNames pluginName = some plugin) (create : Creation Ptr) :
    f.loadPlugin pluginName create =
      match derivedName plugin with
      | none => (f, .ok ())
      | some name => f.loadLib plugin name create := by
  rw [loadPlugin, h, derivedName]
  cases hlib : libnameothy plugin with
  | none => simp only [hlib, Option.map_none]
  | some delibbed => simp only [hlib, Option.map_some]

theorem loadPlugin_of_findLib_eq_none {f : Factory Ptr} {pluginName : Str}
    (h : findLib f.libNames pluginName = none) (create : Creation Ptr) :
    f.loadPlugin pluginName create = (f, .error notAvailable) := by
  rw [loadPlugin, h]

theorem loads_loadPlugin (f : Factory Ptr) (pluginName : Str) (create : Creation Ptr) :
    Loads f (f.loadPlugin pluginName create).1 := by
  cases hfind : findLib f.libNames pluginName with
  | none =>
      rw [loadPlugin_of_findLib_eq_none hfind]
      exact .refl f
  | some plugin =>
      rw [loadPlugin_of_findLib hfind]
      cases hname : derivedName plugin with
      | none => exact .refl f
      | some name => exact loads_loadLib f hname create

/-- The rest of the registry does not change. -/
theorem frame_loadLib (f : Factory Ptr) (plugin name : Str) (create : Creation Ptr) :
    (f.loadLib plugin name create).1.gets = f.gets ∧
      (f.loadLib plugin name create).1.libNames = f.libNames := by
  cases hnone : f.holds name with
  | some b =>
      rw [loadLib_of_isSome (by rw [hnone]; rfl)]
      exact ⟨gets_read f name, libNames_read f name⟩
  | none =>
      rw [loadLib_of_holds_eq_none hnone]
      cases create with
      | returns a => exact ⟨gets_read f name, libNames_read f name⟩
      | throws => exact ⟨gets_read f name, libNames_read f name⟩
      | throwsOther => exact ⟨gets_read f name, libNames_read f name⟩

theorem frame_loadPlugin (f : Factory Ptr) (pluginName : Str) (create : Creation Ptr) :
    (f.loadPlugin pluginName create).1.gets = f.gets ∧
      (f.loadPlugin pluginName create).1.libNames = f.libNames := by
  cases hfind : findLib f.libNames pluginName with
  | none =>
      rw [loadPlugin_of_findLib_eq_none hfind]
      exact ⟨rfl, rfl⟩
  | some plugin =>
      rw [loadPlugin_of_findLib hfind]
      cases derivedName plugin with
      | none => exact ⟨rfl, rfl⟩
      | some name => exact frame_loadLib f plugin name create

/-- An instance that is stored stays. -/
theorem Loads.holds {f g : Factory Ptr} (h : Loads f g) {key : Str} {a : Ptr}
    (ha : f.holds key = some a) : g.holds key = some a := by
  cases h with
  | kept hholds hcreated => rwa [hholds]
  | stored plugin key' b hname hnone hholds hcreated =>
      have hne : key ≠ key' := by
        rintro rfl
        rw [hnone] at ha
        cases ha
      rw [hholds, Function.update_of_ne hne, ha]

/-! `GetType` loads, and answers with what the name holds afterwards.  It does not fail
for a name that holds an instance. -/

theorem fetch_of_find {f : Factory Ptr} {type : Str} {value : Option Ptr}
    (h : f.commands_map type = some value) (create : Creation Ptr) :
    f.fetch type create = (f, .ok value) := by
  simp [fetch, read, h]

theorem fetch_of_error {f g : Factory Ptr} {type : Str} {create : Creation Ptr} {e : Exception}
    (h : f.commands_map type = none) (hload : f.loadPlugin type create = (g, .error e)) :
    f.fetch type create = (g, .error e) := by
  simp [fetch, h, hload]

theorem fetch_of_ok {f g : Factory Ptr} {type : Str} {create : Creation Ptr}
    (h : f.commands_map type = none) (hload : f.loadPlugin type create = (g, .ok ())) :
    f.fetch type create = ((g.read type).1, .ok (g.holds type)) := by
  simp [fetch, h, hload, read_snd]

/-- A case for each way through `GetType`. -/
theorem fetch_cases (f : Factory Ptr) (type : Str) (create : Creation Ptr) :
    (∃ value, f.commands_map type = some value ∧ f.fetch type create = (f, .ok value)) ∨
      ∃ g, Loads f g ∧ g.gets = f.gets ∧ g.libNames = f.libNames ∧ f.commands_map type = none ∧
        ((∃ e, f.fetch type create = (g, .error e)) ∨
          f.fetch type create = ((g.read type).1, .ok (g.holds type))) := by
  cases hfind : f.commands_map type with
  | some value => exact .inl ⟨value, rfl, fetch_of_find hfind create⟩
  | none =>
      have hloads := loads_loadPlugin f type create
      obtain ⟨hgets, hlibs⟩ := frame_loadPlugin f type create
      cases hload : f.loadPlugin type create with
      | mk g r =>
          rw [hload] at hloads hgets hlibs
          refine .inr ⟨g, hloads, hgets, hlibs, rfl, ?_⟩
          cases r with
          | error e => exact .inl ⟨e, fetch_of_error hfind hload⟩
          | ok u => exact .inr (fetch_of_ok hfind hload)

theorem loads_fetch (f : Factory Ptr) (type : Str) (create : Creation Ptr) :
    Loads f (f.fetch type create).1 := by
  rcases fetch_cases f type create with ⟨value, -, h⟩ | ⟨g, hload, -, -, -, ⟨e, h⟩ | h⟩
  · rw [h]
    exact .refl f
  · rw [h]
    exact hload
  · rw [h]
    exact hload.congr (holds_read g type) (created_read g type)

theorem frame_fetch (f : Factory Ptr) (type : Str) (create : Creation Ptr) :
    (f.fetch type create).1.gets = f.gets ∧ (f.fetch type create).1.libNames = f.libNames := by
  rcases fetch_cases f type create with ⟨value, -, h⟩ | ⟨g, -, hgets, hlibs, -, ⟨e, h⟩ | h⟩
  · rw [h]
    exact ⟨rfl, rfl⟩
  · rw [h]
    exact ⟨hgets, hlibs⟩
  · rw [h]
    exact ⟨(gets_read g type).trans hgets, (libNames_read g type).trans hlibs⟩

theorem fetch_of_holds {f : Factory Ptr} {type : Str} {a : Ptr} (ha : f.holds type = some a)
    (create : Creation Ptr) : (f.fetch type create).2 = .ok (some a) := by
  have hfind : f.commands_map type = some (some a) := by rwa [holds, Option.join_eq_some_iff] at ha
  rw [fetch_of_find hfind]

theorem holds_of_fetch {f : Factory Ptr} {type : Str} {create : Creation Ptr} {value : Option Ptr}
    (h : (f.fetch type create).2 = .ok value) : (f.fetch type create).1.holds type = value := by
  rcases fetch_cases f type create with ⟨value', hfind, hf⟩ | ⟨g, -, -, -, -, ⟨e, hf⟩ | hf⟩
  · rw [hf] at h ⊢
    rw [holds, hfind, Option.join_some, Except.ok.inj h]
  · rw [hf] at h
    cases h
  · rw [hf] at h ⊢
    rw [holds_read, Except.ok.inj h]

end Factory

end AsabruCommons.TypeFactory
