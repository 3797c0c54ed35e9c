import Mathlib.Data.List.Induction
import Mathlib.Data.List.Pairwise
import PineScript.Schedule.Session

/-!
# Where passes stand

A pass stands as long as nothing has taken its place: no later pass for its document, no discarding
of the document and no shutdown. The schedule keeps track of this with two marks, the pass that
counts for each document and the passes that were cancelled. `Standing` says how the marks follow
from what has happened, and each operation on a schedule keeps it.
-/

namespace PineScript.Session

/-! ## Histories -/

namespace Entry

/-- Whether an entry takes the place of the earlier passes for a document. -/
def supersedes (uri : String) : Entry → Bool
  | .submitted _ other _ | .discarded other => other == uri
  | .shutDown => true
  | _ => false

/-- The number of the pass that was submitted. -/
def submission? : Entry → Option Nat
  | .submitted pass _ _ => some pass
  | _ => none

end Entry

/-- The pass was submitted for the document, and nothing has taken its place since. -/
def Latest (history : List Entry) (pass : Nat) (uri : String) : Prop :=
  ∃ front source behind, history = front ++ .submitted pass uri source :: behind ∧
    ∀ e ∈ behind, e.supersedes uri = false

/-- The pass has come to its end. -/
def Ended (history : List Entry) (pass : Nat) : Prop :=
  ∃ published, .returned pass published ∈ history

variable {history : List Entry} {e : Entry} {pass other : Nat} {uri uri' source : String}

theorem ended_append_singleton :
    Ended (history ++ [e]) pass ↔
      Ended history pass ∨ ∃ published, e = .returned pass published := by
  simp only [Ended, List.mem_append, List.mem_singleton, exists_or, eq_comm]

/-- A pass is the latest if it was submitted last of all, or was the latest before something that
does not concern it. -/
theorem latest_append_singleton :
    Latest (history ++ [e]) pass uri ↔
      (∃ source, e = .submitted pass uri source) ∨
        Latest history pass uri ∧ e.supersedes uri = false := by
  constructor
  · rintro ⟨front, source, behind, heq, hbehind⟩
    rcases List.eq_nil_or_concat behind with rfl | ⟨behind, last, rfl⟩
    · obtain ⟨-, hlast⟩ := List.append_inj' heq rfl
      exact .inl ⟨source, List.head_eq_of_cons_eq hlast⟩
    · rw [List.concat_eq_append, ← List.cons_append, ← List.append_assoc] at heq
      obtain ⟨rfl, hlast⟩ := List.append_inj' heq rfl
      obtain rfl := List.head_eq_of_cons_eq hlast
      rw [List.concat_eq_append] at hbehind
      refine .inr ⟨⟨front, source, behind, rfl, fun e he => ?_⟩, ?_⟩
      · exact hbehind e (List.mem_append_left _ he)
      · exact hbehind e (List.mem_append_right _ List.mem_cons_self)
  · rintro (⟨source, rfl⟩ | ⟨⟨front, source, behind, rfl, hbehind⟩, he⟩)
    · exact ⟨history, source, [], rfl, by simp⟩
    · refine ⟨front, source, behind ++ [e], by simp, fun x hx => ?_⟩
      rcases List.mem_append.1 hx with hx | hx
      · exact hbehind x hx
      · rwa [List.mem_singleton.1 hx]

/-- What does not concern a document leaves its latest pass. -/
theorem latest_append {entries : List Entry} (h : ∀ e ∈ entries, e.supersedes uri = false) :
    Latest (history ++ entries) pass uri ↔ Latest history pass uri := by
  induction entries generalizing history with
  | nil => rw [List.append_nil]
  | cons e more ih =>
    have he := h e List.mem_cons_self
    have hmore : Latest (history ++ [e] ++ more) pass uri ↔ Latest (history ++ [e]) pass uri :=
      ih fun x hx => h x (List.mem_cons_of_mem _ hx)
    rw [List.append_assoc, List.singleton_append] at hmore
    rw [hmore, latest_append_singleton]
    constructor
    · rintro (⟨source, rfl⟩ | ⟨hlatest, -⟩)
      · simp [Entry.supersedes] at he
      · exact hlatest
    · exact fun hlatest => .inr ⟨hlatest, he⟩

theorem Latest.mem (h : Latest history pass uri) :
    ∃ source, .submitted pass uri source ∈ history := by
  obtain ⟨front, source, behind, rfl, -⟩ := h
  exact ⟨source, List.mem_append_right _ List.mem_cons_self⟩

/-- A document has one latest pass at most. -/
theorem Latest.unique (h : Latest history pass uri) (h' : Latest history other uri) :
    pass = other := by
  induction history using List.reverseRecOn with
  | nil =>
    obtain ⟨source, hmem⟩ := h.mem
    cases hmem
  | append_singleton history e ih =>
    rcases latest_append_singleton.1 h with ⟨source, rfl⟩ | ⟨h, he⟩
    · rcases latest_append_singleton.1 h' with ⟨source', heq⟩ | ⟨-, he⟩
      · cases heq
        rfl
      · simp [Entry.supersedes] at he
    · rcases latest_append_singleton.1 h' with ⟨source', rfl⟩ | ⟨h', -⟩
      · simp [Entry.supersedes] at he
      · exact ih h h'

/-! ## Schedules -/

/-- How the marks of a schedule follow from what has happened. -/
structure Standing (s : Schedule) (history : List Entry) : Prop where
  /-- Passes are numbered in the order in which they are submitted. -/
  numbered : history.filterMap Entry.submission? = List.range s.submitted
  /-- The pass that counts is the latest one, unless it has ended. -/
  current : ∀ uri pass, s.pass? uri = some pass ↔ Latest history pass uri ∧ ¬ Ended history pass
  /-- A pass is cancelled only if something has taken its place. -/
  cancelled : ∀ pass, s.isCancelled pass = true → ∀ uri, ¬ Latest history pass uri
  /-- Nothing is marked that was not submitted. -/
  known : ∀ pass,
    (s.isCancelled pass = true ∨ Ended history pass ∨ ∃ uri, (uri, pass) ∈ s.pending) →
      pass < s.submitted

theorem standing_empty : Standing .empty [] where
  numbered := rfl
  current uri pass := by
    refine ⟨fun h => (by cases h), fun ⟨h, _⟩ => ?_⟩
    obtain ⟨source, hmem⟩ := h.mem
    cases hmem
  cancelled pass h := by cases h
  known pass h := by
    rcases h with h | ⟨published, h⟩ | ⟨uri, h⟩ <;> cases h

namespace Standing

variable {s : Schedule} (h : Standing s history)

include h

theorem lt_of_mem (hmem : .submitted pass uri source ∈ history) : pass < s.submitted := by
  rw [← List.mem_range, ← h.numbered]
  exact List.mem_filterMap.2 ⟨_, hmem, rfl⟩

/-- A pass belongs to one document and one text. -/
theorem submitted_unique {source' : String} (hmem : .submitted pass uri source ∈ history)
    (hmem' : .submitted pass uri' source' ∈ history) : uri = uri' ∧ source = source' := by
  have hnodup : (history.filterMap Entry.submission?).Nodup := h.numbered ▸ List.nodup_range
  let Same (a b : Entry) : Prop := ∀ n, a.submission? = some n → b.submission? = some n → a = b
  have hsymm : Std.Symm Same := ⟨fun a b hab n hb ha => (hab n ha hb).symm⟩
  have hsame : history.Pairwise Same := by
    refine (List.pairwise_filterMap.1 hnodup).imp ?_
    intro a b hne n ha hb
    exact absurd rfl (hne n ha n hb)
  cases hsame.forall_of_forall (fun _ _ _ _ _ => rfl) hmem hmem' pass rfl rfl
  exact ⟨rfl, rfl⟩

theorem latest_uri_unique (hlatest : Latest history pass uri)
    (hlatest' : Latest history pass uri') : uri = uri' := by
  obtain ⟨source, hmem⟩ := hlatest.mem
  obtain ⟨source', hmem'⟩ := hlatest'.mem
  exact (h.submitted_unique hmem hmem').1

/-- What concerns no document and ends no pass changes nothing. -/
theorem aside (hnumber : e.submission? = none) (hquiet : ∀ uri, e.supersedes uri = false)
    (hend : ∀ pass published, e ≠ .returned pass published) : Standing s (history ++ [e]) := by
  have hlatest (pass : Nat) (uri : String) :
      Latest (history ++ [e]) pass uri ↔ Latest history pass uri :=
    latest_append (by simpa using hquiet uri)
  have hended (pass : Nat) : Ended (history ++ [e]) pass ↔ Ended history pass := by
    rw [ended_append_singleton]
    refine or_iff_left ?_
    rintro ⟨published, heq⟩
    exact hend pass published heq
  refine ⟨?_, ?_, ?_, ?_⟩
  · rw [List.filterMap_append, h.numbered]
    simp [hnumber]
  · intro uri pass
    rw [hlatest, hended]
    exact h.current uri pass
  · intro pass hpass uri
    rw [hlatest]
    exact h.cancelled pass hpass uri
  · intro pass hpass
    rw [hended] at hpass
    exact h.known pass hpass

theorem submit (uri source : String) :
    Standing (s.submit uri) (history ++ [.submitted s.submitted uri source]) := by
  have hnew {n : Nat} {u : String} (hlatest : Latest history n u) : n ≠ s.submitted := by
    obtain ⟨source, hmem⟩ := hlatest.mem
    exact Nat.ne_of_lt (h.lt_of_mem hmem)
  have hlatest (n : Nat) (u : String) :
      Latest (history ++ [.submitted s.submitted uri source]) n u ↔
        n = s.submitted ∧ u = uri ∨ Latest history n u ∧ u ≠ uri := by
    rw [latest_append_singleton]
    grind [Entry.supersedes]
  have hended (n : Nat) :
      Ended (history ++ [.submitted s.submitted uri source]) n ↔ Ended history n := by
    simp [ended_append_singleton]
  refine ⟨?_, ?_, ?_, ?_⟩
  · rw [List.filterMap_append, h.numbered]
    exact List.range_succ.symm
  · intro u n
    rw [Schedule.pass?_submit, hlatest, hended]
    by_cases hu : u = uri
    · have hopen : ¬ Ended history s.submitted := fun hend =>
        Nat.lt_irrefl _ (h.known _ (.inr (.inl hend)))
      simp only [hu, ↓reduceIte, and_true, not_true_eq_false, and_false, or_false, ne_eq,
        Option.some.injEq]
      constructor
      · rintro rfl
        exact ⟨rfl, hopen⟩
      · exact fun hn => hn.1.symm
    · simp only [hu, ↓reduceIte, and_false, not_false_eq_true, and_true, false_or, ne_eq]
      exact h.current u n
  · intro n hn u hboth
    -- The pass that counted until now is for the same document, so it is not the latest any more.
    rcases (hlatest n u).1 hboth with ⟨rfl, rfl⟩ | ⟨hold, hu⟩
    · rcases Schedule.isCancelled_submit.1 hn with hn | hn
      · exact Nat.lt_irrefl _ (h.known _ (.inl hn))
      · exact hnew ((h.current _ _).1 hn).1 rfl
    · rcases Schedule.isCancelled_submit.1 hn with hn | hn
      · exact h.cancelled n hn u hold
      · exact hu (h.latest_uri_unique hold ((h.current _ _).1 hn).1)
  · intro n hn
    rw [hended] at hn
    change n < s.submitted + 1
    rcases hn with hn | hn | ⟨u, hn⟩
    · rcases Schedule.isCancelled_submit.1 hn with hn | hn
      · exact Nat.lt_succ_of_lt (h.known n (.inl hn))
      · obtain ⟨source, hmem⟩ := ((h.current _ _).1 hn).1.mem
        exact Nat.lt_succ_of_lt (h.lt_of_mem hmem)
    · exact Nat.lt_succ_of_lt (h.known n (.inr (.inl hn)))
    · rcases List.mem_append.1 hn with hn | hn
      · exact Nat.lt_succ_of_lt (h.known n (.inr (.inr ⟨u, Schedule.mem_drop hn⟩)))
      · cases List.mem_singleton.1 hn
        exact Nat.lt_succ_self _

theorem discard (uri : String) : Standing (s.discard uri) (history ++ [.discarded uri]) := by
  have hlatest (n : Nat) (u : String) :
      Latest (history ++ [.discarded uri]) n u ↔ Latest history n u ∧ u ≠ uri := by
    rw [latest_append_singleton]
    grind [Entry.supersedes]
  have hended (n : Nat) : Ended (history ++ [.discarded uri]) n ↔ Ended history n := by
    simp [ended_append_singleton]
  refine ⟨?_, ?_, ?_, ?_⟩
  · rw [List.filterMap_append, h.numbered]
    simp [Entry.submission?, Schedule.discard]
  · intro u n
    rw [Schedule.pass?_discard, hlatest, hended]
    by_cases hu : u = uri
    · simp [hu]
    · simp only [hu, ↓reduceIte, not_false_eq_true, and_true, ne_eq]
      exact h.current u n
  · intro n hn u hboth
    obtain ⟨hold, hu⟩ := (hlatest n u).1 hboth
    rcases Schedule.isCancelled_discard.1 hn with hn | hn
    · exact h.cancelled n hn u hold
    · exact hu (h.latest_uri_unique hold ((h.current _ _).1 hn).1)
  · intro n hn
    rw [hended] at hn
    change n < s.submitted
    rcases hn with hn | hn | ⟨u, hn⟩
    · rcases Schedule.isCancelled_discard.1 hn with hn | hn
      · exact h.known n (.inl hn)
      · obtain ⟨source, hmem⟩ := ((h.current _ _).1 hn).1.mem
        exact h.lt_of_mem hmem
    · exact h.known n (.inr (.inl hn))
    · exact h.known n (.inr (.inr ⟨u, Schedule.mem_drop hn⟩))

theorem shutdown : Standing s.shutdown (history ++ [.shutDown]) := by
  have hlatest (n : Nat) (u : String) : ¬ Latest (history ++ [.shutDown]) n u := by
    simp [latest_append_singleton, Entry.supersedes]
  have hended (n : Nat) : Ended (history ++ [.shutDown]) n ↔ Ended history n := by
    simp [ended_append_singleton]
  refine ⟨?_, ?_, ?_, ?_⟩
  · rw [List.filterMap_append, h.numbered]
    simp [Entry.submission?, Schedule.shutdown]
  · intro u n
    simp [Schedule.shutdown, Schedule.pass?, hlatest]
  · exact fun n _ u => hlatest n u
  · intro n hn
    rw [hended] at hn
    rcases hn with hn | hn | ⟨u, hn⟩
    · rcases Schedule.isCancelled_shutdown.1 hn with hn | hn
      · exact h.known n (.inl hn)
      · exact h.known n (.inr (.inr hn))
    · exact h.known n (.inr (.inl hn))
    · cases hn

/-- A pass that has ended is forgotten, whether or not it was the one that counts. -/
theorem finish (hmem : .submitted pass uri source ∈ history) (published : Bool) :
    Standing (s.finish uri pass) (history ++ [.returned pass published]) := by
  have hlatest (n : Nat) (u : String) :
      Latest (history ++ [.returned pass published]) n u ↔ Latest history n u :=
    latest_append (by simp [Entry.supersedes])
  have hended (n : Nat) :
      Ended (history ++ [.returned pass published]) n ↔ Ended history n ∨ n = pass := by
    simp [ended_append_singleton, eq_comm]
  have hsubmitted : (s.finish uri pass).submitted = s.submitted := by
    unfold Schedule.finish
    split <;> rfl
  refine ⟨?_, ?_, ?_, ?_⟩
  · rw [List.filterMap_append, h.numbered, hsubmitted]
    simp [Entry.submission?]
  · intro u n
    rw [Schedule.pass?_finish, hlatest, hended]
    by_cases hpass : u = uri ∧ s.pass? uri = some pass
    · obtain ⟨rfl, hpass⟩ := hpass
      simp only [hpass, true_and, ↓reduceIte, reduceCtorEq, false_iff, not_and, not_not]
      intro hn
      exact .inr (hn.unique ((h.current _ _).1 hpass).1)
    · rw [if_neg hpass, h.current]
      refine and_congr_right fun hn => not_congr (or_iff_left_of_imp ?_).symm
      -- The pass that ends belongs to its own document only, and was not the one that counts.
      rintro rfl
      obtain ⟨source', hmem'⟩ := hn.mem
      obtain ⟨rfl, -⟩ := h.submitted_unique hmem hmem'
      by_contra hopen
      exact hpass ⟨rfl, (h.current _ _).2 ⟨hn, hopen⟩⟩
  · intro n hn u
    rw [hlatest]
    exact h.cancelled n (by rwa [Schedule.isCancelled_finish] at hn) u
  · intro n hn
    rw [hsubmitted]
    rcases hn with hn | hn | ⟨u, hn⟩
    · exact h.known n (.inl (by rwa [Schedule.isCancelled_finish] at hn))
    · rcases (hended n).1 hn with hn | rfl
      · exact h.known n (.inr (.inl hn))
      · exact h.lt_of_mem hmem
    · refine h.known n (.inr (.inr ⟨u, ?_⟩))
      unfold Schedule.finish at hn
      split at hn
      · exact Schedule.mem_drop hn
      · exact hn

end Standing

end PineScript.Session
