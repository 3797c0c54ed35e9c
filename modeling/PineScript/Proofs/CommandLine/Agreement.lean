import Mathlib.Data.List.Forall2
import PineScript.CommandLine
import PineScript.Proofs.Diagnostic.Published

/-!
# Checking and dumping

Checking many paths prints what dumping the files one by one publishes. The files are those that the
paths stand for, each place once and by the path that names it first, as far as this path can be
read. That rules are set up once for a directory and not once for a file makes no difference
(`checkFiles_eq_checkAnew`).

Main statement: `check_prints_dumped`.
-/

namespace PineScript

/-! ## The files that paths stand for -/

namespace Script

variable {tree : FileTree} {paths files : List FilePath}

/-- The files that a path stands for: those found below a directory, or else the path itself. -/
def standsFor (tree : FileTree) (path : FilePath) : List FilePath :=
  if tree.isDirectory path = .ok true then below tree path else [path]

theorem isDirectory_of_place {path : FilePath} (h : tree.place path ≠ .error .nameTooLong) :
    ∃ answer, tree.isDirectory path = .ok answer := by
  rw [FileTree.isDirectory]
  split
  · exact ⟨_, rfl⟩
  · exact absurd ‹_› h
  · exact ⟨_, rfl⟩

theorem expand_eq_ok (h : ∀ path ∈ paths, tree.place path ≠ .error .nameTooLong) :
    expand tree paths = .ok (paths.flatMap (standsFor tree)) := by
  induction paths with
  | nil => rfl
  | cons path more ih =>
    obtain ⟨hpath, hmore⟩ := List.forall_mem_cons.1 h
    obtain ⟨answer, hanswer⟩ := isDirectory_of_place hpath
    rw [expand, hanswer, List.flatMap_cons, standsFor, hanswer]
    cases answer with
    | true => rw [if_pos rfl, ih hmore]; rfl
    | false => rw [if_neg (by decide), ih hmore]; rfl

/-- The first path whose name is too long ends the search. -/
theorem expand_eq_error {front behind : List FilePath} {path : FilePath}
    (hfront : ∀ p ∈ front, tree.place p ≠ .error .nameTooLong)
    (hpath : tree.place path = .error .nameTooLong) :
    expand tree (front ++ path :: behind) = .error ⟨.nameTooLong, path⟩ := by
  induction front with
  | nil => rw [List.nil_append, expand, FileTree.isDirectory, hpath]
  | cons p front ih =>
    obtain ⟨hp, hmore⟩ := List.forall_mem_cons.1 hfront
    obtain ⟨answer, hanswer⟩ := isDirectory_of_place hp
    rw [List.cons_append, expand, hanswer, ih hmore]
    cases answer <;> rfl

/-- Whether a script can be read. -/
def isReadable (tree : FileTree) (path : FilePath) : Bool := (read tree path).isOk

/-- Of the paths that name one place the first, in the order of these. -/
structure Firsts (tree : FileTree) (files shown : List FilePath) : Prop where
  firsts : ∀ place, shown.filter (tree.resolve · == place) =
    (files.find? (tree.resolve · == place)).toList
  ordered : shown.Pairwise fun p q => files.idxOf p < files.idxOf q

theorem mem_of_mem_distinct {path : FilePath} (h : path ∈ distinct tree files) : path ∈ files := by
  induction files with
  | nil => exact h
  | cons first more ih =>
    rcases List.mem_cons.1 h with rfl | h
    · exact List.mem_cons_self
    · exact List.mem_cons_of_mem first (ih (List.mem_filter.1 h).1)

theorem filter_distinct (place : List String) :
    (distinct tree files).filter (tree.resolve · == place) =
      (files.find? (tree.resolve · == place)).toList := by
  induction files with
  | nil => rfl
  | cons path more ih =>
    rw [distinct, List.filter_cons, List.filter_filter, List.find?_cons]
    split
    · -- No later path is kept that names the same place.
      rename_i hplace
      rw [hplace, List.filter_eq_nil_iff.2]
      · rfl
      · intro other _
        simp only [beq_iff_eq] at hplace
        simp [hplace]
    · rename_i hplace
      rw [Bool.not_eq_true] at hplace
      rw [hplace, ← ih]
      refine List.filter_congr fun other _ => ?_
      simp only [beq_eq_false_iff_ne] at hplace
      grind

theorem pairwise_idxOf_distinct (files : List FilePath) :
    (distinct tree files).Pairwise fun p q => files.idxOf p < files.idxOf q := by
  induction files with
  | nil => exact .nil
  | cons path more ih =>
    have hne : ∀ other ∈ (distinct tree more).filter (tree.resolve · ≠ tree.resolve path),
        path ≠ other := by
      rintro other hother rfl
      simpa using (List.mem_filter.1 hother).2
    refine List.pairwise_cons.2 ⟨fun other hother => ?_, ?_⟩
    · rw [List.idxOf_cons_self, List.idxOf_cons_ne _ (hne other hother)]
      exact Nat.succ_pos _
    · refine (ih.filter _).imp_of_mem fun hp hq hlt => ?_
      rw [List.idxOf_cons_ne _ (hne _ hp), List.idxOf_cons_ne _ (hne _ hq)]
      exact Nat.succ_lt_succ hlt

theorem firsts_distinct (files : List FilePath) : Firsts tree files (distinct tree files) :=
  ⟨filter_distinct, pairwise_idxOf_distinct files⟩

/-- All paths to a place lead there, or none does. -/
def Alike (tree : FileTree) (files : List FilePath) : Prop :=
  ∀ p ∈ files, ∀ q ∈ files, tree.resolve p = tree.resolve q → isReadable tree p = isReadable tree q

instance (tree : FileTree) (files : List FilePath) : Decidable (Alike tree files) :=
  inferInstanceAs (Decidable (∀ p ∈ files, ∀ q ∈ files,
    tree.resolve p = tree.resolve q → isReadable tree p = isReadable tree q))

theorem filter_isReadable_distinct (h : Alike tree files) :
    (distinct tree files).filter (isReadable tree) =
      distinct tree (files.filter (isReadable tree)) := by
  induction files with
  | nil => rfl
  | cons path more ih =>
    have hmore : Alike tree more := fun p hp q hq =>
      h p (List.mem_cons_of_mem path hp) q (List.mem_cons_of_mem path hq)
    rw [distinct, List.filter_cons, List.filter_cons, List.filter_filter]
    split
    · rw [distinct, ← ih hmore, List.filter_filter]
      simp only [Bool.and_comm]
    · -- A later path to the place of this one cannot be read either.
      rename_i hpath
      rw [← ih hmore]
      refine List.filter_congr fun other hother => ?_
      have hmem := List.mem_cons_of_mem path (mem_of_mem_distinct hother)
      have halike := h path List.mem_cons_self other hmem
      cases hread : isReadable tree other with
      | false => rfl
      | true =>
        rw [hread] at halike
        simpa using fun heq => hpath (halike heq.symm)

def Report.diagnostics : Report → List Diagnostic
  | .analysed ds _ => ds
  | _ => []

theorem exists_report {path : FilePath} (hread : isReadable tree path = true)
    (hrules : (rulesFor tree (directory tree path)).isOk = true) :
    ∃ ds logs, report tree path = .analysed ds logs := by
  rw [isReadable] at hread
  rw [report]
  cases hsource : read tree path with
  | error fault =>
    rw [hsource] at hread
    cases hread
  | ok source =>
    cases hr : rulesFor tree (directory tree path) with
    | error fault =>
      rw [hr] at hrules
      cases hrules
    | ok rules => exact ⟨_, _, rfl⟩

theorem exists_unreadable {path : FilePath} (hread : isReadable tree path = false) :
    ∃ fault, report tree path = .unreadable fault := by
  rw [isReadable] at hread
  rw [report]
  cases hsource : read tree path with
  | error fault => exact ⟨fault, rfl⟩
  | ok source =>
    rw [hsource] at hread
    cases hread

theorem diagnostics_of_unreadable {path : FilePath} (hread : isReadable tree path = false) :
    (report tree path).diagnostics = [] := by
  obtain ⟨fault, hfault⟩ := exists_unreadable hread
  rw [hfault]
  rfl

/-- There are settings for every file that can be read. -/
def Settled (tree : FileTree) (files : List FilePath) : Prop :=
  ∀ path ∈ files, isReadable tree path = true →
    (rulesFor tree (directory tree path)).isOk = true

instance (tree : FileTree) (files : List FilePath) : Decidable (Settled tree files) :=
  inferInstanceAs (Decidable (∀ path ∈ files, isReadable tree path = true →
    (rulesFor tree (directory tree path)).isOk = true))

end Script

/-! ## Published records and printed lines -/

namespace Json

def field? (name : String) : Json → Option Json
  | .object fields => fields.lookup name
  | _ => none

end Json

namespace CommandLine

open Script (Settled Alike Firsts isReadable standsFor)

variable {console : Console} {tree : FileTree} {files : List FilePath} {strict verbose : Bool}

/-- A printed line tells where a published record starts, counted from one, its code and its
message. It comes out as it is unless there is an escape character in it. -/
def Prints (console : Console) (path : FilePath) (record : Json) (line : String) : Prop :=
  ∃ code message start row column,
    record.field? "code" = some (.text code) ∧
    record.field? "message" = some (.text message) ∧
    (record.field? "range").bind (Json.field? "start") = some start ∧
    start.field? "line" = some (.integer row) ∧
    start.field? "character" = some (.integer column) ∧
    let shown := path.text
    let text := s!"{shown}:{row + 1}:{column + 1}: {code} {message}"
    line = console.out.print text ∧ ('\x1b' ∉ text.toList → line = text)

theorem prints_diagnosticLine (console : Console) (path : FilePath) (d : Diagnostic) :
    Prints console path d.asRecord (console.out.print (diagnosticLine path d)) :=
  ⟨d.code, d.message, _, d.range.start.line, d.range.start.character, rfl, rfl, rfl, rfl, rfl, rfl,
    console.out.faithful _⟩

/-- There is nothing in published text that a stream could change. -/
theorem print_publish (printer : Printer) (ds : List Diagnostic) :
    printer.print (Diagnostic.publish ds) = Diagnostic.publish ds :=
  printer.faithful _ fun hmem => absurd (Diagnostic.isPlain_publish ds _ hmem) (by decide)

theorem dump_out {path : FilePath} {ds : List Diagnostic} {logs : List LogRecord}
    (h : Script.report tree path = .analysed ds logs) (verbose : Bool) :
    (dump console tree path none verbose).out = Diagnostic.publish ds := by
  rw [dump, h]
  exact print_publish console.out ds

/-- The lines that are printed of a file. -/
def outLines (console : Console) (tree : FileTree) (path : FilePath) : List String :=
  (Script.report tree path).diagnostics.map (console.out.print <| diagnosticLine path ·)

/-- Whether the diagnostics of a file make a check fail. -/
def fails (strict : Bool) (tree : FileTree) (path : FilePath) : Bool :=
  isFailure strict (Script.report tree path).diagnostics

/-- What is printed of a file and published of it come from the same diagnostics. -/
theorem prints_dumped {path : FilePath} {ds : List Diagnostic} {logs : List LogRecord}
    (h : Script.report tree path = .analysed ds logs) (verbose : Bool) :
    ∃ records, Json.decode (dump console tree path none verbose).out = some (.array records) ∧
      List.Forall₂ (Prints console path) records (outLines console tree path) := by
  refine ⟨ds.map Diagnostic.asRecord, ?_, ?_⟩
  · rw [dump_out h, Diagnostic.decode_publish]
  · rw [outLines, h, List.forall₂_map_left_iff, List.forall₂_map_right_iff]
    exact List.forall₂_same.2 fun d _ => prints_diagnosticLine console path d

theorem fails_iff_dumped {path : FilePath} {ds : List Diagnostic} {logs : List LogRecord}
    (h : Script.report tree path = .analysed ds logs) (verbose : Bool) :
    fails strict tree path = true ↔
      (dump console tree path none verbose).exitCode = 1 ∨
        strict = true ∧
          Json.decode (dump console tree path none verbose).out ≠ some (.array []) := by
  have hexit : (dump console tree path none verbose).exitCode =
      if Diagnostic.hasErrors ds then 1 else 0 := by rw [dump, h]
  rw [dump_out h, hexit, Diagnostic.decode_publish, fails, h, Script.Report.diagnostics, isFailure]
  cases Diagnostic.hasErrors ds <;> simp

/-! ## Rules that are set up once -/

/-- The rules that were set up are those of their directories. -/
def Known (tree : FileTree) (analyzers : List (List String × List Rule)) : Prop :=
  ∀ directory rules, analyzers.lookup directory = some rules →
    Script.rulesFor tree directory = .ok rules

theorem known_nil : Known tree [] := fun directory rules h => by cases h

theorem Known.cons {analyzers : List (List String × List Rule)} (h : Known tree analyzers)
    {directory : List String} {rules : List Rule}
    (hrules : Script.rulesFor tree directory = .ok rules) :
    Known tree ((directory, rules) :: analyzers) := by
  intro other found hfound
  rw [List.lookup_cons] at hfound
  split at hfound
  · rename_i hsame
    rw [eq_of_beq hsame, hrules, Option.some.inj hfound]
  · exact h other found hfound

namespace Tally

variable {t : Tally} {directory : List String}

theorem rulesFor_of_error (h : Known tree t.analyzers) {fault : SettingsFault}
    (hfault : Script.rulesFor tree directory = .error fault) :
    t.rulesFor tree directory = .error fault := by
  unfold rulesFor
  cases hlookup : t.analyzers.lookup directory with
  | some found =>
    rw [h directory found hlookup] at hfault
    cases hfault
  | none => rw [hfault]; rfl

/-- One step: what is looked up is what would be set up. -/
theorem rulesFor_of_ok (h : Known tree t.analyzers) {rules : List Rule}
    (hrules : Script.rulesFor tree directory = .ok rules) :
    ∃ analyzers, t.rulesFor tree directory = .ok (rules, { t with analyzers }) ∧
      Known tree analyzers := by
  unfold rulesFor
  cases hlookup : t.analyzers.lookup directory with
  | some found =>
    obtain rfl : found = rules := Except.ok.inj ((h directory found hlookup).symm.trans hrules)
    exact ⟨t.analyzers, rfl, h⟩
  | none =>
    rw [hrules]
    exact ⟨_, rfl, h.cons hrules⟩

end Tally

section

variable (console tree strict verbose)

/-- Checking where each file is analysed on its own. -/
def checkAnew : List FilePath → Tally → Result
  | [], t => t.result none
  | path :: more, t =>
    match Script.report tree path with
    | .unreadable fault => checkAnew more (t.skip console path fault)
    | .unsettled fault => t.result (some (.settings fault))
    | .analysed ds logs => checkAnew more (t.add console strict verbose path ds logs)

theorem checkAnew_analyzers (files : List FilePath) (t : Tally)
    (analyzers : List (List String × List Rule)) :
    checkAnew console tree strict verbose files { t with analyzers } =
      checkAnew console tree strict verbose files t := by
  induction files generalizing t with
  | nil => rfl
  | cons path more ih =>
    unfold checkAnew
    cases Script.report tree path with
    | unreadable fault => exact ih (t.skip console path fault)
    | unsettled fault => rfl
    | analysed ds logs => exact ih (t.add console strict verbose path ds logs)

variable {console tree strict verbose}

/-- Whatever rules were set up before, each file is analysed with those of its own directory. -/
theorem checkFiles_eq_checkAnew {t : Tally} (h : Known tree t.analyzers) :
    checkFiles console tree strict verbose files t =
      checkAnew console tree strict verbose files t := by
  induction files generalizing t with
  | nil => rfl
  | cons path more ih =>
    unfold checkFiles checkAnew Script.report
    cases Script.read tree path with
    | error fault => exact ih h
    | ok source =>
      dsimp only
      cases hrules : Script.rulesFor tree (Script.directory tree path) with
      | error fault => rw [Tally.rulesFor_of_error h hrules]
      | ok rules =>
        obtain ⟨analyzers, heq, hknown⟩ := Tally.rulesFor_of_ok h hrules
        rw [heq]
        exact (ih hknown).trans (checkAnew_analyzers console tree strict verbose more
          (t.add console strict verbose path _ _) analyzers)

end

/-! ## The files that can be read -/

/-- A file that cannot be read adds nothing to the output. -/
theorem outLines_of_unreadable {path : FilePath} (hread : isReadable tree path = false) :
    outLines console tree path = [] := by
  rw [outLines, Script.diagnostics_of_unreadable hread, List.map_nil]

/-- A file that cannot be read is no failure. -/
theorem fails_of_unreadable {path : FilePath} (hread : isReadable tree path = false) :
    fails strict tree path = false := by
  rw [fails, Script.diagnostics_of_unreadable hread]
  exact Bool.and_false strict

/-- Without a fault in the settings every file is checked. -/
theorem checkAnew_of_settled (console : Console) (strict verbose : Bool) (t : Tally)
    (h : Settled tree files) :
    ∃ err, checkAnew console tree strict verbose files t =
      { exitCode := if t.failed || files.any (fails strict tree) then 1 else 0
        out := paragraph (t.out ++ files.flatMap (outLines console tree))
        err } := by
  induction files generalizing t with
  | nil =>
    refine ⟨paragraph t.err, ?_⟩
    rw [checkAnew, Tally.result, List.flatMap_nil, List.append_nil, List.any_nil, Bool.or_false]
    simp only [Option.isSome_none, Bool.false_eq_true, false_or]
  | cons path more ih =>
    obtain ⟨hpath, hmore⟩ := List.forall_mem_cons.1 h
    unfold checkAnew
    cases hread : isReadable tree path with
    | false =>
      obtain ⟨fault, hreport⟩ := Script.exists_unreadable hread
      rw [hreport, List.any_cons, fails_of_unreadable hread, List.flatMap_cons,
        outLines_of_unreadable hread, List.nil_append]
      exact ih (t.skip console path fault) hmore
    | true =>
      obtain ⟨ds, logs, hreport⟩ := Script.exists_report hread (hpath hread)
      have hfails : fails strict tree path = isFailure strict ds := by
        rw [fails, hreport, Script.Report.diagnostics]
      have hlines : outLines console tree path =
          ds.map (console.out.print <| diagnosticLine path ·) := by
        rw [outLines, hreport, Script.Report.diagnostics]
      rw [hreport, List.any_cons, hfails, List.flatMap_cons, hlines, ← Bool.or_assoc,
        ← List.append_assoc]
      exact ih (t.add console strict verbose path ds logs) hmore

theorem flatMap_outLines_filter (files : List FilePath) :
    files.flatMap (outLines console tree) =
      (files.filter (isReadable tree)).flatMap (outLines console tree) := by
  induction files with
  | nil => rfl
  | cons path more ih =>
    rw [List.flatMap_cons, List.filter_cons, ih]
    split
    · rw [List.flatMap_cons]
    · rename_i hread
      rw [outLines_of_unreadable (Bool.not_eq_true _ ▸ hread), List.nil_append]

theorem any_fails_filter (files : List FilePath) :
    files.any (fails strict tree) =
      (files.filter (isReadable tree)).any (fails strict tree) := by
  rw [List.any_filter]
  congr 1
  funext path
  cases hread : isReadable tree path with
  | true => rfl
  | false => exact fails_of_unreadable hread

/-- The first path whose name is too long ends a check, and nothing is printed. Otherwise checking
prints, for the first path to each place if it can be read, one line for each record that dumping
the file publishes. It fails if dumping one of them does, or if it is strict and there is a record.
If all paths to a place can be read or none can, these are the first paths among those that can be
read. -/
theorem check_prints_dumped (console : Console) (tree : FileTree) (paths : List FilePath)
    (strict verbose verbose' : Bool) :
    (∀ front path behind, paths = front ++ path :: behind →
      (∀ p ∈ front, tree.place p ≠ .error .nameTooLong) →
      tree.place path = .error .nameTooLong →
      check console tree strict verbose paths =
        { exitCode := 1, abort := some (.path ⟨.nameTooLong, path⟩) }) ∧
    ((∀ path ∈ paths, tree.place path ≠ .error .nameTooLong) →
      Settled tree (paths.flatMap (standsFor tree)) →
      ∃ shown lines,
        (∃ firsts, Firsts tree (paths.flatMap (standsFor tree)) firsts ∧
          shown = firsts.filter (isReadable tree)) ∧
        (Alike tree (paths.flatMap (standsFor tree)) →
          Firsts tree ((paths.flatMap (standsFor tree)).filter (isReadable tree)) shown) ∧
        List.Forall₂ (fun path own => ∃ records,
          Json.decode (dump console tree path none verbose').out = some (.array records) ∧
            List.Forall₂ (Prints console path) records own) shown lines ∧
        (check console tree strict verbose paths).out = paragraph lines.flatten ∧
        (check console tree strict verbose paths).abort = none ∧
        (check console tree strict verbose paths).exitCode ≤ 1 ∧
        ((check console tree strict verbose paths).exitCode = 1 ↔ ∃ path ∈ shown,
          (dump console tree path none verbose').exitCode = 1 ∨ strict = true ∧
            Json.decode (dump console tree path none verbose').out ≠ some (.array []))) := by
  refine ⟨?_, fun hpaths hsettled => ?_⟩
  · rintro front path behind rfl hfront hpath
    rw [check, Script.expand_eq_error hfront hpath]
  generalize hfirsts : Script.distinct tree (paths.flatMap (standsFor tree)) = firsts
  have hmem {path : FilePath} (h : path ∈ firsts) : path ∈ paths.flatMap (standsFor tree) :=
    Script.mem_of_mem_distinct (hfirsts ▸ h)
  have hreports : ∀ path ∈ firsts.filter (isReadable tree),
      ∃ ds logs, Script.report tree path = .analysed ds logs := by
    intro path hpath
    obtain ⟨hfirst, hread⟩ := List.mem_filter.1 hpath
    exact Script.exists_report hread (hsettled path (hmem hfirst) hread)
  obtain ⟨err, hcheck⟩ := checkAnew_of_settled console strict verbose {}
    fun path hpath => hsettled path (hmem hpath)
  rw [check, Script.expand_eq_ok hpaths]
  dsimp only
  rw [hfirsts, checkFiles_eq_checkAnew known_nil, hcheck, flatMap_outLines_filter,
    any_fails_filter]
  refine ⟨firsts.filter (isReadable tree),
    (firsts.filter (isReadable tree)).map (outLines console tree),
    ⟨firsts, hfirsts ▸ Script.firsts_distinct _, rfl⟩, fun halike => ?_, ?_, ?_, rfl, ?_, ?_⟩
  · rw [← hfirsts, Script.filter_isReadable_distinct halike]
    exact Script.firsts_distinct _
  · refine List.forall₂_map_right_iff.2 (List.forall₂_same.2 fun path hpath => ?_)
    obtain ⟨ds, logs, hreport⟩ := hreports path hpath
    exact prints_dumped hreport verbose'
  · rw [List.nil_append, List.flatMap_def]
  · dsimp only
    split
    · exact Nat.le_refl 1
    · exact Nat.zero_le 1
  · simp only [Bool.false_or, ite_eq_left_iff, Nat.zero_ne_one, imp_false, not_not,
      List.any_eq_true]
    refine exists_congr fun path => and_congr_right fun hpath => ?_
    obtain ⟨ds, logs, hreport⟩ := hreports path hpath
    exact fails_iff_dumped hreport verbose'

/-- A directory, a file in it once more, a file by two paths, another one beside it, and one that is
missing. With one more path, whose name is too long, nothing is printed. -/
theorem check_prints_dumped_mixed :
    let console : Console := ⟨.piped, .terminal⟩
    let tree : FileTree := ⟨["w"], [(["w", "a.pine"], .file [40, 10]),
      (["w", "c.pine"], .file [41, 10]), (["w", "s", "b.pine"], .file [120, 10])]⟩
    let paths : List FilePath := [⟨"", ["s"]⟩, ⟨"", ["missing.pine"]⟩, ⟨"", ["s", "b.pine"]⟩,
      ⟨"", ["a.pine"]⟩, ⟨"", ["s", "..", "a.pine"]⟩, ⟨"", ["c.pine"]⟩]
    let tooLong : FilePath := ⟨"", [String.ofList (List.replicate 256 'a')]⟩
    ((∀ path ∈ paths, tree.place path ≠ .error .nameTooLong) ∧
      Settled tree (paths.flatMap (standsFor tree)) ∧ Alike tree (paths.flatMap (standsFor tree)) ∧
      ∃ (shown : List FilePath) (lines : List (List String)),
        Firsts tree [⟨"", ["s", "b.pine"]⟩, ⟨"", ["s", "b.pine"]⟩, ⟨"", ["a.pine"]⟩,
          ⟨"", ["s", "..", "a.pine"]⟩, ⟨"", ["c.pine"]⟩] shown ∧
        (check console tree false false paths).out = paragraph lines.flatten ∧
        (∃ path ∈ shown, (dump console tree path none true).exitCode = 1)) ∧
    tree.place tooLong = .error .nameTooLong ∧
      (check console tree false false (paths ++ [tooLong])).out = "" := by
  intro console tree paths tooLong
  have hpaths : ∀ path ∈ paths, tree.place path ≠ .error .nameTooLong := by decide +kernel
  have halike : Alike tree (paths.flatMap (standsFor tree)) := by decide +kernel
  have hsettled : Settled tree (paths.flatMap (standsFor tree)) := by decide +kernel
  have hfiles : (paths.flatMap (standsFor tree)).filter (isReadable tree) =
      [⟨"", ["s", "b.pine"]⟩, ⟨"", ["s", "b.pine"]⟩, ⟨"", ["a.pine"]⟩,
        ⟨"", ["s", "..", "a.pine"]⟩, ⟨"", ["c.pine"]⟩] := by decide +kernel
  have hlong : tree.place tooLong = .error .nameTooLong := by decide +kernel
  obtain ⟨shown, lines, -, hfirsts, -, hout, -, -, hexit⟩ :=
    (check_prints_dumped console tree paths false false true).2 hpaths hsettled
  refine ⟨⟨hpaths, hsettled, halike, shown, lines, hfiles ▸ hfirsts halike, hout, ?_⟩, hlong, ?_⟩
  · obtain ⟨path, hpath, hfails⟩ := hexit.1 (by decide +kernel)
    exact ⟨path, hpath, hfails.resolve_right fun h => Bool.false_ne_true h.1⟩
  · rw [(check_prints_dumped console tree (paths ++ [tooLong]) false false true).1 paths tooLong []
      rfl hpaths hlong]

/-- A path through a missing directory keeps the file that it would name from being checked under
its own path, and one with too long a name keeps all files from it. A message is printed without the
control sequence in it that is published, unless it is printed on a terminal. -/
theorem check_differs_from_dump :
    let console : Console := ⟨.piped, .piped⟩
    let script : FilePath := ⟨"", ["a.pine"]⟩
    let escaped : FileTree :=
      ⟨["w"], [(["w", "a.pine"], .file [120, 32, 61, 32, 49, 32, 34, 27, 91, 50, 74, 113, 34, 10])]⟩
    let tree : FileTree := ⟨["w"], [(["w", "a.pine"], .file [40, 10])]⟩
    (dump console escaped script none false).out = Diagnostic.publish
        [⟨"SYNTAX_ERROR", "Unexpected `\"\x1b[2Jq\"`; expected end of line", .error,
          ⟨⟨0, 6⟩, ⟨0, 13⟩⟩, "pine-lint"⟩] ∧
      (check console escaped false false [script]).out =
        "a.pine:1:7: SYNTAX_ERROR Unexpected `\"q\"`; expected end of line\n" ∧
      (check ⟨.terminal, .piped⟩ escaped false false [script]).out =
        "a.pine:1:7: SYNTAX_ERROR Unexpected `\"\x1b[2Jq\"`; expected end of line\n" ∧
      (dump console tree script none false).exitCode = 1 ∧
      (check console tree false false [⟨"", ["missing", "..", "a.pine"]⟩, script]).exitCode = 0 ∧
      (check console tree false false [⟨"", ["missing", "..", "a.pine"]⟩, script]).out = "" ∧
      (check console tree false false
        [⟨"", [String.ofList (List.replicate 256 'a')]⟩, script]).out = "" ∧
      (check console tree false false [script]).out =
        "a.pine:1:3: SYNTAX_ERROR Unexpected end of input; expected an expression\n" := by
  intro console script escaped tree
  refine ⟨?_, by decide +kernel⟩
  obtain ⟨ds, logs, hreport⟩ : ∃ ds logs, Script.report escaped script = .analysed ds logs :=
    Script.exists_report (by decide +kernel) (by decide +kernel)
  have hds : (Script.report escaped script).diagnostics =
      [⟨"SYNTAX_ERROR", "Unexpected `\"\x1b[2Jq\"`; expected end of line", .error,
        ⟨⟨0, 6⟩, ⟨0, 13⟩⟩, "pine-lint"⟩] := by decide +kernel
  rw [hreport] at hds
  rw [dump_out hreport]
  exact congrArg Diagnostic.publish hds

end CommandLine

end PineScript
