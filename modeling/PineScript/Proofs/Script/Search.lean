import PineScript.Proofs.Sorted
import PineScript.Script

/-!
# Searching directories

What a search finds are the scripts below the directory that no skipped directory on the way hides,
in the order of their parts. The way counts from the start of the path as it is written. So what is
found does not depend on where the directory lies, unless its own path has a part that is skipped:
then nothing is found.

Main statement: `below_searches`.
-/

namespace PineScript

/-! ## The order of paths -/

namespace FilePath

/-- Paths are ordered like words: by the first part in which they differ. -/
theorem partsLe_iff {a b : List String} : partsLe a b = true ↔ ¬ b < a := by
  fun_induction partsLe a b with
  | case1 b => simp
  | case2 part more => simp
  | case3 as part bs ih =>
    rw [ih, List.cons_lt_cons_iff, or_iff_right (String.lt_irrefl part), and_iff_right rfl]
  | case4 a as b bs hne =>
    rw [decide_eq_true_iff, List.cons_lt_cons_iff, or_iff_left fun h => hne h.1.symm,
      String.not_lt]

theorem isOrder_partsLe : IsOrder partsLe where
  trans hab hbc := by
    rw [partsLe_iff, List.not_lt] at *
    exact List.le_trans hab hbc
  total a b := by
    rw [partsLe_iff, partsLe_iff, List.not_lt, List.not_lt]
    exact List.le_total a b

theorem partsLe_append (front a b : List String) :
    partsLe (front ++ a) (front ++ b) = partsLe a b := by
  induction front with
  | nil => rfl
  | cons part more ih => rw [List.cons_append, List.cons_append, partsLe, if_pos rfl, ih]

end FilePath

/-- Different lists of parts, sorted. -/
theorem pairwise_lt_of_nodup {xs : List (List String)} (h : xs.Nodup) :
    (stableSort FilePath.partsLe xs).Pairwise (· < ·) := by
  have hnodup : (stableSort FilePath.partsLe xs).Nodup := (stableSort_perm _ xs).nodup_iff.2 h
  have hsorted := FilePath.isOrder_partsLe.pairwise_stableSort xs
  refine (hnodup.and hsorted).imp fun ⟨hne, hle⟩ => ?_
  by_contra hlt
  exact hne (List.le_antisymm (List.not_lt.1 (FilePath.partsLe_iff.1 hle)) (List.not_lt.1 hlt))

/-! ## Files below a place -/

namespace FileTree

variable {tree : FileTree} {place inner : List String}

/-- At most one entry stands at a place. -/
def Proper (tree : FileTree) : Prop := (tree.entries.map Prod.fst).Nodup

instance (tree : FileTree) : Decidable tree.Proper :=
  inferInstanceAs (Decidable (tree.entries.map Prod.fst).Nodup)

def IsFile (tree : FileTree) (place : List String) : Prop :=
  ∃ content, tree.entry? place = some (.file content)

/-- A path that leads to a directory. -/
structure Leads (tree : FileTree) (directory : FilePath) (place : List String) : Prop where
  arrives : tree.place directory = .ok place
  isDirectory : tree.entry? place = some .directory

theorem isDirectory_iff_leads {directory : FilePath} :
    tree.isDirectory directory = .ok true ↔ ∃ place, tree.Leads directory place := by
  rw [isDirectory]
  constructor
  · intro h
    split at h
    · rename_i place hplace
      exact ⟨place, hplace, by simpa using h⟩
    · cases h
    · cases h
  · rintro ⟨place, harrives, hdirectory⟩
    simp only [harrives, hdirectory, beq_self_eq_true]

theorem leads_of_place {directory : FilePath} (h : tree.isDirectory directory = .ok true)
    (hplace : tree.place directory = .ok place) : tree.Leads directory place := by
  obtain ⟨_, hleads⟩ := isDirectory_iff_leads.1 h
  obtain rfl := Except.ok.inj (hplace.symm.trans hleads.arrives)
  exact hleads

theorem entry?_eq_file_iff {content : List UInt8} :
    tree.entry? place = some (.file content) ↔ tree.entries.lookup place = some (.file content) := by
  unfold entry?
  split
  · rename_i e he
    rw [he]
  · rename_i hnone
    rw [hnone]
    split <;> simp

theorem Proper.lookup_eq_some_iff (h : tree.Proper) {e : FileEntry} :
    tree.entries.lookup place = some e ↔ (place, e) ∈ tree.entries := by
  rw [List.lookup_eq_some_iff]
  constructor
  · rintro ⟨before, behind, hentries, -⟩
    rw [hentries]
    exact List.mem_append_right before List.mem_cons_self
  · intro hmem
    obtain ⟨before, behind, hentries⟩ := List.append_of_mem hmem
    refine ⟨before, behind, hentries, fun p hp => bne_iff_ne.2 fun heq => ?_⟩
    -- An entry in front of it would be a second one at its place.
    rw [Proper, hentries, List.map_append, List.map_cons, List.nodup_append] at h
    exact h.2.2 p.1 (List.mem_map_of_mem hp) place List.mem_cons_self heq.symm

theorem Proper.isFile_iff (h : tree.Proper) :
    tree.IsFile place ↔ ∃ content, (place, .file content) ∈ tree.entries := by
  simp only [IsFile, entry?_eq_file_iff, h.lookup_eq_some_iff]

theorem dropped_eq_some_iff {parts : List String} :
    (if place.isPrefixOf parts then some (parts.drop place.length) else none) = some inner ↔
      parts = place ++ inner := by
  rw [Option.ite_none_right_eq_some, List.isPrefixOf_iff_prefix, Option.some_inj]
  constructor
  · rintro ⟨hfront, rfl⟩
    exact (List.prefix_iff_eq_append.1 hfront).symm
  · rintro rfl
    exact ⟨List.prefix_append place inner, List.drop_left⟩

theorem mem_filesBelow_iff (h : tree.Proper) :
    inner ∈ tree.filesBelow place ↔ tree.IsFile (place ++ inner) := by
  rw [filesBelow, List.mem_filterMap, h.isFile_iff]
  constructor
  · rintro ⟨⟨parts, e⟩, hmem, hfound⟩
    cases e with
    | directory => cases hfound
    | file content => exact ⟨content, dropped_eq_some_iff.1 hfound ▸ hmem⟩
  · rintro ⟨content, hmem⟩
    exact ⟨_, hmem, dropped_eq_some_iff.2 rfl⟩

theorem nodup_filesBelow (h : tree.Proper) : (tree.filesBelow place).Nodup := by
  refine List.Pairwise.filterMap _ ?_ (List.pairwise_map.1 h)
  rintro ⟨parts, e⟩ ⟨parts', e'⟩ hne inner hinner inner' hinner' rfl
  cases e with
  | directory => cases hinner
  | file content =>
    cases e' with
    | directory => cases hinner'
    | file content' =>
      exact hne ((dropped_eq_some_iff.1 hinner).trans (dropped_eq_some_iff.1 hinner').symm)

/-- The directory itself is not among the files below it. -/
theorem Leads.nil_notMem {directory : FilePath} (h : tree.Leads directory place)
    (htree : tree.Proper) : [] ∉ tree.filesBelow place := by
  rw [mem_filesBelow_iff htree, List.append_nil]
  rintro ⟨content, hcontent⟩
  rw [h.isDirectory] at hcontent
  cases hcontent

end FileTree

/-! ## Scripts below a directory -/

namespace Script

variable {tree tree' : FileTree} {directory directory' : FilePath} {place place' : List String}

/-- No directory on this way is skipped. -/
def Open (way : List String) : Prop := ∀ part ∈ way, part ∉ skipped

instance (way : List String) : Decidable (Open way) :=
  inferInstanceAs (Decidable (∀ part ∈ way, part ∉ skipped))

/-- A script below a place, by its parts from there. -/
structure Source (tree : FileTree) (place inner : List String) : Prop where
  isFile : tree.IsFile (place ++ inner)
  ending : ∃ name, inner.getLast? = some name ∧ FilePath.suffixOf name ∈ endings
  way : Open inner.dropLast

theorem open_append {way way' : List String} : Open (way ++ way') ↔ Open way ∧ Open way' :=
  List.forall_mem_append

/-- No script is named like a skipped directory. -/
theorem notMem_skipped_of_suffix {name : String} (h : FilePath.suffixOf name ∈ endings) :
    name ∉ skipped := by
  intro hname
  have hnone : ∀ name ∈ skipped, FilePath.suffixOf name ∉ endings := by decide +kernel
  exact hnone name hname h

/-- Whether the parts below a directory make a script, wherever the directory lies. -/
def isSource (inner : List String) : Bool :=
  inner.getLast?.any (FilePath.suffixOf · ∈ endings) && decide (Open inner.dropLast)

theorem isSource_iff {inner : List String} : isSource inner = true ↔
    (∃ name, inner.getLast? = some name ∧ FilePath.suffixOf name ∈ endings) ∧
      Open inner.dropLast := by
  simp [isSource, Option.any_eq_true]

theorem isWanted_below {inner : List String} (h : inner ≠ []) :
    isWanted (directory.below inner) = (decide (Open directory.parts) && isSource inner) := by
  obtain ⟨within, name, rfl⟩ : ∃ within name, inner = within ++ [name] :=
    ⟨_, _, (List.dropLast_concat_getLast h).symm⟩
  rw [Bool.eq_iff_iff, Bool.and_eq_true, isSource_iff, decide_eq_true_iff]
  have hwanted : isWanted (directory.below (within ++ [name])) = true ↔
      FilePath.suffixOf name ∈ endings ∧ Open (directory.parts ++ (within ++ [name])) := by
    simp only [isWanted, FilePath.suffix, FilePath.below, Open, Bool.and_eq_true, decide_eq_true_iff,
      Bool.not_eq_true', List.any_eq_false, ← List.append_assoc, List.getLast?_concat,
      Option.getD_some]
  rw [hwanted, open_append, open_append, List.getLast?_concat, List.dropLast_concat]
  constructor
  · rintro ⟨hending, hdirectory, hwithin, -⟩
    exact ⟨hdirectory, ⟨name, rfl, hending⟩, hwithin⟩
  · rintro ⟨hdirectory, ⟨_, ⟨⟩, hending⟩, hwithin⟩
    exact ⟨hending, hdirectory, hwithin, by simpa [Open] using notMem_skipped_of_suffix hending⟩

/-- The scripts below a place, in order, by their parts from there. -/
def sources (tree : FileTree) (place : List String) : List (List String) :=
  stableSort FilePath.partsLe ((tree.filesBelow place).filter isSource)

theorem mem_sources_iff (htree : tree.Proper) {inner : List String} :
    inner ∈ sources tree place ↔ Source tree place inner := by
  rw [sources, (stableSort_perm _ _).mem_iff, List.mem_filter, FileTree.mem_filesBelow_iff htree,
    isSource_iff]
  exact ⟨fun ⟨hfile, hending, hway⟩ => ⟨hfile, hending, hway⟩, fun h => ⟨h.isFile, h.ending, h.way⟩⟩

theorem pairwise_sources (htree : tree.Proper) : (sources tree place).Pairwise (· < ·) :=
  pairwise_lt_of_nodup ((FileTree.nodup_filesBelow htree).filter _)

/-- Sorting does not look at what all paths have in front. -/
theorem stableSort_map_below (inners : List (List String)) :
    stableSort (fun p q => FilePath.partsLe p.parts q.parts) (inners.map directory.below) =
      (stableSort FilePath.partsLe inners).map directory.below := by
  have hrel : List.Forall₂ (fun path inner => path = directory.below inner)
      (inners.map directory.below) inners :=
    List.forall₂_map_left_iff.2 (List.forall₂_same.2 fun _ _ => rfl)
  have hle : ∀ p inner q inner', p = directory.below inner → q = directory.below inner' →
      FilePath.partsLe p.parts q.parts = FilePath.partsLe inner inner' := by
    rintro p inner q inner' rfl rfl
    exact FilePath.partsLe_append directory.parts inner inner'
  have hsorted := stableSort_rel hle hrel
  rwa [← List.forall₂_map_right_iff, List.forall₂_eq_eq_eq] at hsorted

theorem below_eq (htree : tree.Proper) (h : tree.Leads directory place) :
    below tree directory =
      if Open directory.parts then (sources tree place).map directory.below else [] := by
  have hwanted : ∀ inner ∈ tree.filesBelow place, isWanted (directory.below inner) =
      (decide (Open directory.parts) && isSource inner) := fun inner hinner =>
    isWanted_below fun hnil => h.nil_notMem htree (hnil ▸ hinner)
  rw [below, h.arrives]
  dsimp only
  rw [List.filter_map, stableSort_map_below]
  simp only [Function.comp_def, List.filter_congr hwanted]
  split
  · rename_i hopen
    simp only [hopen, decide_true, Bool.true_and, sources]
  · rename_i hskipped
    simp [hskipped, stableSort]

/-- Places with the same files below have the same scripts below. -/
theorem sources_congr (htree : tree.Proper) (htree' : tree'.Proper)
    (hsame : ∀ inner, tree.IsFile (place ++ inner) ↔ tree'.IsFile (place' ++ inner)) :
    sources tree place = sources tree' place' := by
  have hmem : ∀ inner, inner ∈ sources tree place ↔ inner ∈ sources tree' place' := by
    intro inner
    rw [mem_sources_iff htree, mem_sources_iff htree']
    exact ⟨fun h => ⟨(hsame inner).1 h.isFile, h.ending, h.way⟩,
      fun h => ⟨(hsame inner).2 h.isFile, h.ending, h.way⟩⟩
  have hpairs : (sources tree place).Pairwise (· < ·) := pairwise_sources htree
  have hpairs' : (sources tree' place').Pairwise (· < ·) := pairwise_sources htree'
  have hperm := (List.perm_ext_iff_of_nodup (hpairs.imp Std.ne_of_lt) (hpairs'.imp Std.ne_of_lt)).2
    hmem
  exact hperm.eq_of_pairwise (fun a b _ _ hab hba => absurd hab (List.lt_asymm hba)) hpairs hpairs'

/-- A search finds the scripts below a directory, sorted, if no directory is skipped on the way to
it, and nothing if one is. The same files below another directory are found alike. -/
theorem below_searches (htree : tree.Proper) (h : tree.isDirectory directory = .ok true) :
    ∃ place, tree.place directory = .ok place ∧
      (below tree directory).Pairwise (·.parts < ·.parts) ∧
      (∀ path, path ∈ below tree directory ↔
        Open directory.parts ∧ ∃ inner, path = directory.below inner ∧ Source tree place inner) ∧
      (∀ tree' directory' place', tree'.Proper → tree'.isDirectory directory' = .ok true →
        tree'.place directory' = .ok place' →
        (∀ inner, tree.IsFile (place ++ inner) ↔ tree'.IsFile (place' ++ inner)) →
        (Open directory.parts ↔ Open directory'.parts) →
        ∃ inners : List (List String), below tree directory = inners.map directory.below ∧
          below tree' directory' = inners.map directory'.below) := by
  obtain ⟨place, hleads⟩ := FileTree.isDirectory_iff_leads.1 h
  refine ⟨place, hleads.arrives, ?_, fun path => ?_, ?_⟩
  · rw [below_eq htree hleads]
    split
    · refine List.pairwise_map.2 ((pairwise_sources htree).imp fun hlt => ?_)
      exact List.append_left_lt hlt
    · exact .nil
  · rw [below_eq htree hleads]
    split
    · rename_i hopen
      simp [hopen, mem_sources_iff htree, eq_comm, and_comm]
    · rename_i hskipped
      simp [hskipped]
  · intro tree' directory' place' htree' h' hplace' hsame hopen
    have hleads' := FileTree.leads_of_place h' hplace'
    rw [below_eq htree hleads, below_eq htree' hleads', ← sources_congr htree htree' hsame]
    by_cases hskipped : Open directory.parts
    · rw [if_pos hskipped, if_pos (hopen.1 hskipped)]
      exact ⟨_, rfl, rfl⟩
    · rw [if_neg hskipped, if_neg (mt hopen.2 hskipped)]
      exact ⟨[], rfl, rfl⟩

/-- A directory of three scripts, one of them in a skipped directory, from two places. -/
theorem below_searches_moved :
    let tree : FileTree := ⟨["w"], [(["w", "s", "b.pine"], .file []),
      (["w", "s", "a", "c.pinescript"], .file []), (["w", "s", "dist", "d.pine"], .file [])]⟩
    let tree' : FileTree := ⟨["w"], [(["v", "dist", "d.pine"], .file []),
      (["v", "b.pine"], .file []), (["v", "a", "c.pinescript"], .file [])]⟩
    tree.Proper ∧ tree.isDirectory ⟨"", ["s"]⟩ = .ok true ∧
      tree'.Proper ∧ tree'.isDirectory ⟨"/", ["v"]⟩ = .ok true ∧
      ⟨"", ["s", "b.pine"]⟩ ∈ below tree ⟨"", ["s"]⟩ ∧
      ∃ inners : List (List String), below tree ⟨"", ["s"]⟩ = inners.map (⟨"", "s" :: ·⟩) ∧
        below tree' ⟨"/", ["v"]⟩ = inners.map (⟨"/", "v" :: ·⟩) := by
  intro tree tree'
  have htree : tree.Proper := by decide +kernel
  have htree' : tree'.Proper := by decide +kernel
  have h : tree.isDirectory ⟨"", ["s"]⟩ = .ok true := by decide +kernel
  have h' : tree'.isDirectory ⟨"/", ["v"]⟩ = .ok true := by decide +kernel
  obtain ⟨place, hplace, -, hmem, hmoved⟩ := below_searches htree h
  obtain rfl : ["w", "s"] = place := Except.ok.inj ((by decide +kernel : _ = _).trans hplace)
  refine ⟨htree, h, htree', h', (hmem _).2 ⟨by decide +kernel, ["b.pine"], rfl, ?_⟩, ?_⟩
  · exact ⟨⟨[], by decide +kernel⟩, ⟨"b.pine", rfl, by decide +kernel⟩, by decide +kernel⟩
  · refine hmoved tree' ⟨"/", ["v"]⟩ ["v"] htree' h' (by decide +kernel) (fun inner => ?_)
      (by decide +kernel)
    rw [htree.isFile_iff, htree'.isFile_iff]
    exact exists_congr fun content => by simp [tree, tree', or_comm, or_left_comm]

/-- Below a directory that is skipped nothing is found, even if the search starts there. From a
working directory further down it is found. -/
theorem below_misses_in_build :
    let tree : FileTree := ⟨["w"], [(["w", "build", "s", "z.pine"], .file [])]⟩
    tree.Proper ∧ tree.isDirectory ⟨"", ["build", "s"]⟩ = .ok true ∧
      tree.place ⟨"", ["build", "s"]⟩ = .ok ["w", "build", "s"] ∧
      Source tree ["w", "build", "s"] ["z.pine"] ∧ below tree ⟨"", ["build", "s"]⟩ = [] ∧
      below { tree with here := ["w", "build"] } ⟨"", ["s"]⟩ = [⟨"", ["s", "z.pine"]⟩] := by
  refine ⟨by decide +kernel, by decide +kernel, by decide +kernel, ?_, by decide +kernel,
    by decide +kernel⟩
  exact ⟨⟨[], by decide +kernel⟩, ⟨"z.pine", rfl, by decide +kernel⟩, by decide +kernel⟩

end Script

end PineScript
