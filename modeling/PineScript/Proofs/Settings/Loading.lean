import Mathlib.Data.List.Basic
import PineScript.Settings.Load

/-!
# When settings load

Main statement: loading gives settings exactly if there is no settings file, or the nearest one can
be decoded and is no TOML or has values of the right kinds only. Without a file, if it is no TOML
and if it has no section of its own, these are the defaults (`load_iff_well_kinded`).
-/

namespace PineScript.Settings

open Toml (Value Table)

/-! ## The nearest file -/

/-- The settings file of the directory that the first `n` parts of a path lead to. -/
def fileAt (directory : FilePath) (n : Nat) : FilePath :=
  FilePath.below { directory with parts := directory.parts.take n } ["pyproject.toml"]

/-- No settings file stands there, and nothing keeps the search from going on. -/
def Passes (tree : FileTree) (directory : FilePath) (n : Nat) : Prop :=
  ∃ fault, tree.read (fileAt directory n) = .error fault ∧ fault ≠ .nameTooLong

/-- The search comes as far up as the first `n` parts. -/
def Reaches (tree : FileTree) (directory : FilePath) (n : Nat) : Prop :=
  n ≤ directory.parts.length ∧ ∀ m ≤ directory.parts.length, n < m → Passes tree directory m

/-- The content of the nearest settings file. -/
def Nearest (tree : FileTree) (directory : FilePath) (bytes : List UInt8) : Prop :=
  ∃ n, Reaches tree directory n ∧ tree.read (fileAt directory n) = .ok bytes

def Missing (tree : FileTree) (directory : FilePath) : Prop :=
  ∀ n ≤ directory.parts.length, Passes tree directory n

/-- What a search ends with that stops at a file. -/
def stoppedAt (path : FilePath) :
    Except FileFault (List UInt8) → Except SettingsFault (Option (List UInt8))
  | .ok bytes => .ok (some bytes)
  | .error fault => .error (.file fault path)

/-- What a search ends with. -/
inductive Search (tree : FileTree) (directory : FilePath) :
    Except SettingsFault (Option (List UInt8)) → Prop
  | missing : Missing tree directory → Search tree directory (.ok none)
  | stopped {n : Nat} : Reaches tree directory n → ¬ Passes tree directory n →
    Search tree directory (stoppedAt (fileAt directory n) (tree.read (fileAt directory n)))

variable {tree : FileTree} {directory : FilePath} {n : Nat} {bytes : List UInt8}

theorem not_passes_of_ok (h : tree.read (fileAt directory n) = .ok bytes) :
    ¬ Passes tree directory n := by
  rintro ⟨fault, hfault, -⟩
  rw [h] at hfault
  cases hfault

theorem not_passes_of_nameTooLong (h : tree.read (fileAt directory n) = .error .nameTooLong) :
    ¬ Passes tree directory n := by
  rintro ⟨fault, hfault, hne⟩
  rw [h] at hfault
  exact hne (Except.error.inj hfault).symm

theorem Search.unique {result result' : Except SettingsFault (Option (List UInt8))}
    (h : Search tree directory result) (h' : Search tree directory result') : result = result' := by
  cases h with
  | missing hmissing =>
    cases h' with
    | missing _ => rfl
    | stopped hn hstop => exact absurd (hmissing _ hn.1) hstop
  | @stopped n hn hstop =>
    cases h' with
    | missing hmissing => exact absurd (hmissing _ hn.1) hstop
    | @stopped m hm hstop' =>
      -- Each of the two places is passed by a search that comes as far as the other.
      have hle : n ≤ m := Nat.le_of_not_lt fun hlt => hstop (hm.2 n hn.1 hlt)
      have hge : m ≤ n := Nat.le_of_not_lt fun hlt => hstop' (hn.2 m hm.1 hlt)
      rw [Nat.le_antisymm hle hge]

/-- Directories are searched from the nearest one on. -/
theorem firstIn_upwards (tree : FileTree) (directory : FilePath) :
    Search tree directory (firstIn tree (upwards directory)) := by
  have hfrom (k : Nat) (hk : k ≤ directory.parts.length + 1)
      (hpassed : ∀ m ≤ directory.parts.length, k ≤ m → Passes tree directory m) :
      Search tree directory (firstIn tree ((List.range k).reverse.map fun n =>
        { directory with parts := directory.parts.take n })) := by
    induction k with
    | zero => exact .missing fun n hn => hpassed n hn (Nat.zero_le n)
    | succ k ih =>
      have hreaches : Reaches tree directory k := ⟨Nat.le_of_succ_le_succ hk, hpassed⟩
      rw [List.range_succ, List.reverse_append, List.reverse_singleton, List.singleton_append,
        List.map_cons, firstIn]
      cases hread : tree.read (fileAt directory k) with
      | ok bytes =>
        have hstop := Search.stopped hreaches (not_passes_of_ok hread)
        rw [hread] at hstop
        rw [fileAt] at hread
        simp only [hread]
        exact hstop
      | error fault =>
        by_cases hlong : fault = .nameTooLong
        · rw [hlong] at hread
          have hstop := Search.stopped hreaches (not_passes_of_nameTooLong hread)
          rw [hread] at hstop
          rw [fileAt] at hread
          simp only [hread]
          exact hstop
        · have hpass : Passes tree directory k := ⟨fault, hread, hlong⟩
          rw [fileAt] at hread
          simp only [hread]
          refine ih (Nat.le_of_succ_le hk) fun m hm hle => ?_
          rcases Nat.eq_or_lt_of_le hle with rfl | hlt
          · exact hpass
          · exact hpassed m hm hlt
  exact hfrom _ (Nat.le_refl _) fun m hm hle => absurd hle (Nat.not_le.2 (Nat.lt_succ_of_le hm))

/-! ## Kinds -/

/-- The value is a table with a property. -/
def IsTable (v : Value) (P : Table → Prop) : Prop := ∃ t, v = .table t ∧ P t

/-- Rules are named by a list of texts. A text and a table are taken for one. -/
def NamesRules : Value → Prop
  | .array items => ∀ v ∈ items, ∃ text, v = .string text
  | .string _ | .table _ => True
  | _ => False

/-- What there is of the section and of its entries is of the kind that is asked for. -/
def WellKinded (root : Table) : Prop :=
  ∀ v ∈ root.lookup "tool", IsTable v fun tool =>
    ∀ v ∈ tool.lookup "pine-lint", IsTable v fun own =>
      (∀ v ∈ own.lookup "select", NamesRules v) ∧ (∀ v ∈ own.lookup "ignore", NamesRules v) ∧
        ∀ v ∈ own.lookup "rules", IsTable v fun _ => True

/-- The document has no section for the settings. -/
def WithoutSection (root : Table) : Prop :=
  ∀ v ∈ root.lookup "tool", IsTable v fun tool => tool.lookup "pine-lint" = none

theorem exists_ok_bind {ε α β : Type} {x : Except ε α} {f : α → Except ε β} :
    (∃ b, x >>= f = .ok b) ↔ ∃ a, x = .ok a ∧ ∃ b, f a = .ok b := by
  cases x <;> simp [bind, Except.bind]

theorem exists_ok_mapM {ε α β : Type} {f : α → Except ε β} {l : List α} :
    (∃ bs, l.mapM f = .ok bs) ↔ ∀ a ∈ l, ∃ b, f a = .ok b := by
  induction l with
  | nil => simp [pure, Except.pure]
  | cons a more ih =>
    simp only [List.mapM_cons, exists_ok_bind, List.forall_mem_cons, ← ih]
    simp [pure, Except.pure]

theorem ruleNames_iff (v : Value) : (∃ names, ruleNames v = .ok names) ↔ NamesRules v := by
  cases v with
  | array items =>
    have hname (v : Value) : (∃ name, ruleName v = .ok name) ↔ ∃ text, v = .string text := by
      cases v <;> simp [ruleName]
    simp only [NamesRules, ← hname, ← exists_ok_mapM, ruleNames]
    cases items.mapM ruleName <;> simp [Functor.map, Except.map]
  | _ => simp [ruleNames, NamesRules]

/-- A section that is not there is empty. -/
theorem section?_iff {P : Table → Prop} (t : Table) (name : String) (hempty : P []) :
    (∃ entries, section? t name = .ok entries ∧ P entries) ↔
      ∀ v ∈ t.lookup name, IsTable v P := by
  unfold section?
  cases t.lookup name with
  | none => simp [hempty]
  | some v => cases v <;> simp [IsTable]

def ignoredIn (own : Table) : Except SettingsFault (List String) :=
  match own.lookup "ignore" with
  | none => .ok []
  | some v => ruleNames v

def optionsIn (own : Table) : Except SettingsFault (List (String × Options)) :=
  match own.lookup "rules" with
  | none => .ok []
  | some (.table entries) => .ok (ruleOptions entries)
  | some v => .error (.notOptions v.kindName)

/-- The settings of a section, entry by entry. -/
def ofSection (own : Table) : Except SettingsFault Settings := do
  let select ← (own.lookup "select").mapM ruleNames
  let ignore ← ignoredIn own
  let options ← optionsIn own
  return { select, ignore, options }

theorem ofToml_eq (root : Table) :
    ofToml root = (do ofSection (← section? (← section? root "tool") "pine-lint")) := by
  unfold ofToml
  refine congrArg _ (funext fun tool => congrArg _ (funext fun own => ?_))
  unfold ofSection ignoredIn optionsIn
  refine congrArg _ (funext fun select => ?_)
  cases own.lookup "ignore" with
  | none =>
    cases own.lookup "rules" with
    | none => rfl
    | some v => cases v <;> rfl
  | some v =>
    refine congrArg _ (funext fun ignore => ?_)
    cases own.lookup "rules" with
    | none => rfl
    | some v => cases v <;> rfl

theorem ofSection_iff (own : Table) :
    (∃ settings, ofSection own = .ok settings) ↔
      (∀ v ∈ own.lookup "select", NamesRules v) ∧ (∀ v ∈ own.lookup "ignore", NamesRules v) ∧
        ∀ v ∈ own.lookup "rules", IsTable v fun _ => True := by
  have hselect : (∃ names, (own.lookup "select").mapM ruleNames = .ok names) ↔
      ∀ v ∈ own.lookup "select", NamesRules v := by
    cases own.lookup "select" with
    | none => simp [pure, Except.pure]
    | some v =>
      simp only [Option.mapM_some, ← ruleNames_iff, Option.mem_def, Option.some.injEq, forall_eq']
      cases ruleNames v <;> simp [Functor.map, Except.map]
  have hignore : (∃ names, ignoredIn own = .ok names) ↔
      ∀ v ∈ own.lookup "ignore", NamesRules v := by
    unfold ignoredIn
    cases own.lookup "ignore" with
    | none => simp
    | some v => simp [ruleNames_iff]
  have hrules : (∃ options, optionsIn own = .ok options) ↔
      ∀ v ∈ own.lookup "rules", IsTable v fun _ => True := by
    unfold optionsIn
    cases own.lookup "rules" with
    | none => simp
    | some v => cases v <;> simp [IsTable]
  simp only [ofSection, exists_ok_bind, ← hselect, ← hignore, ← hrules]
  simp [pure, Except.pure]

theorem ofToml_iff (root : Table) :
    (∃ settings, ofToml root = .ok settings) ↔ WellKinded root := by
  simp only [ofToml_eq, exists_ok_bind, ofSection_iff]
  rw [WellKinded, ← section?_iff root "tool" (by simp)]
  refine exists_congr fun tool => and_congr_right fun _ => ?_
  exact section?_iff tool "pine-lint" (by simp)

theorem ofToml_of_withoutSection {root : Table} (h : WithoutSection root) : ofToml root = .ok {} := by
  obtain ⟨tool, htool, hnone⟩ := (section?_iff root "tool" (by simp)).2 h
  have hown : section? tool "pine-lint" = .ok [] := by
    unfold section?
    rw [hnone]
  rw [ofToml_eq, htool]
  change section? tool "pine-lint" >>= ofSection = _
  rw [hown]
  rfl

/-! ## Loading -/

theorem ofBytes_iff (bytes : List UInt8) :
    (∃ settings, ofBytes bytes = .ok settings) ↔
      ∃ source, Text.decodeUtf8 bytes = .ok source ∧
        ∀ root, Toml.parse? source = some root → WellKinded root := by
  unfold ofBytes
  cases Text.decodeUtf8 bytes with
  | error fault => simp
  | ok source =>
    simp only [Except.ok.injEq, exists_eq_left']
    cases Toml.parse? source with
    | none => simp
    | some root => simp [ofToml_iff]

theorem ofBytes_default {source : String} (hsource : Text.decodeUtf8 bytes = .ok source)
    (h : ∀ root, Toml.parse? source = some root → WithoutSection root) :
    ofBytes bytes = .ok {} := by
  unfold ofBytes
  rw [hsource]
  dsimp only
  cases hparse : Toml.parse? source with
  | none => rfl
  | some root => exact ofToml_of_withoutSection (h root hparse)

theorem load_of_missing (h : Missing tree directory) : load tree directory = .ok {} := by
  unfold load
  rw [(firstIn_upwards tree directory).unique (.missing h)]
  rfl

theorem load_of_nearest (h : Nearest tree directory bytes) :
    load tree directory = ofBytes bytes := by
  obtain ⟨n, hn, hread⟩ := h
  unfold load
  rw [(firstIn_upwards tree directory).unique (.stopped hn (not_passes_of_ok hread)), hread]
  rfl

theorem load_of_nameTooLong (hn : Reaches tree directory n)
    (hread : tree.read (fileAt directory n) = .error .nameTooLong) :
    load tree directory = .error (.file .nameTooLong (fileAt directory n)) := by
  unfold load
  rw [(firstIn_upwards tree directory).unique (.stopped hn (not_passes_of_nameTooLong hread)),
    hread]
  rfl

/-- Settings are loaded exactly if there is no settings file, or the nearest one can be decoded and
is no TOML or of the right kinds. They are the defaults if there is no file, if it is no TOML and if
it has no section. A file that cannot be decoded is refused, and so is one that cannot be looked for
because its name is too long.

Two limits on what can be read are left out, so that such files are read like any other here: a
decimal number may have more than 4300 digits, and values may be nested in each other to any
depth. -/
theorem load_iff_well_kinded (tree : FileTree) (directory : FilePath) :
    ((∃ settings, load tree directory = .ok settings) ↔
      Missing tree directory ∨ ∃ bytes source, Nearest tree directory bytes ∧
        Text.decodeUtf8 bytes = .ok source ∧
        ∀ root, Toml.parse? source = some root → WellKinded root) ∧
    (Missing tree directory → load tree directory = .ok {}) ∧
    (∀ bytes source, Nearest tree directory bytes → Text.decodeUtf8 bytes = .ok source →
      (∀ root, Toml.parse? source = some root → WithoutSection root) →
      load tree directory = .ok {}) ∧
    (∀ bytes fault, Nearest tree directory bytes → Text.decodeUtf8 bytes = .error fault →
      load tree directory = .error (.encoding fault)) ∧
    ∀ n, Reaches tree directory n → tree.read (fileAt directory n) = .error .nameTooLong →
      load tree directory = .error (.file .nameTooLong (fileAt directory n)) := by
  refine ⟨⟨?_, ?_⟩, load_of_missing, ?_, ?_, fun n => load_of_nameTooLong⟩
  · rintro ⟨settings, hload⟩
    have hsearch := firstIn_upwards tree directory
    generalize hresult : firstIn tree (upwards directory) = result at hsearch
    cases hsearch with
    | missing hmissing => exact .inl hmissing
    | @stopped n hn hstop =>
      cases hread : tree.read (fileAt directory n) with
      | ok bytes =>
        have hnearest : Nearest tree directory bytes := ⟨n, hn, hread⟩
        rw [load_of_nearest hnearest] at hload
        obtain ⟨source, hsource, hroot⟩ := (ofBytes_iff bytes).1 ⟨settings, hload⟩
        exact .inr ⟨bytes, source, hnearest, hsource, hroot⟩
      | error fault =>
        unfold load at hload
        rw [hresult, hread] at hload
        cases hload
  · rintro (hmissing | ⟨bytes, source, hnearest, hsource, hroot⟩)
    · exact ⟨_, load_of_missing hmissing⟩
    · rw [load_of_nearest hnearest]
      exact (ofBytes_iff bytes).2 ⟨source, hsource, hroot⟩
  · intro bytes source hnearest hsource hroot
    rw [load_of_nearest hnearest]
    exact ofBytes_default hsource hroot
  · intro bytes fault hnearest hfault
    rw [load_of_nearest hnearest, ofBytes, hfault]

/-- A byte that starts no character is refused, and so is a number where the section should be,
instead of giving the defaults. -/
theorem load_refuses_stray_byte :
    let file (content : List UInt8) : FileTree := ⟨[], [(["pyproject.toml"], .file content)]⟩
    load (file [0xff]) ⟨"/", []⟩ = .error (.encoding ⟨0, 1, 0xff, .start⟩) ∧
      load (file "tool = 1".toUTF8.toList) ⟨"/", []⟩ = .error (.notASection "int") :=
  ⟨rfl, by decide +kernel⟩

end PineScript.Settings
