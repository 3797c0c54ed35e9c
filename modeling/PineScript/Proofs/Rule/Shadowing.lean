import Mathlib.Data.List.Forall2
import Mathlib.Logic.Relation
import PineScript.Proofs.Rule.Scopes

/-!
# Which declarations shadow a name

A body binds the names of its header and those that are declared directly in it. A declaration
shadows a name if its own body does not bind the name before, and a body around it does. Main
statement: these declarations are reported, each once, in the order of visits, and each with the
line of the binding in the nearest such body (`Shadowing.check_reports_shadows`).
-/

namespace PineScript.Rule.Shadowing

open Node (Attached nodeAt? parentAt? isBodyAt bodyAbove? bodyAbove?_lt)

/-! ## Bindings -/

/-- The header of a statement binds a name in the block. Of two parameters with one name the last
counts. -/
inductive HeaderBinds : Node → Block → String → Int → Prop
  | counter {range : Range} {counter : Name} {first last : Expr} {step : Option Expr} {body : Block} :
      HeaderBinds (.stmt (.countingLoop range counter first last step body)) body counter.text
        counter.range.start.line
  | element {range : Range} {element : Name} {collection : Expr} {body : Block} :
      HeaderBinds (.stmt (.iteratingLoop range element collection body)) body element.text
        element.range.start.line
  | parameter {range : Range} {name : Name} {front behind : List Parameter} {p : Parameter}
      {body : Block} (hlast : ∀ q ∈ behind, q.name.text ≠ p.name.text) :
      HeaderBinds (.stmt (.blockFunction range name (front ++ p :: behind) body)) body p.name.text
        p.range.start.line

section

variable (index : Array Node.Entry)

/-- The body is the block of a statement whose header binds the name. -/
def BindsImplicitly (body : Nat) (name : String) (line : Int) : Prop :=
  ∃ b depth holder statement, index[body]? = some ⟨.block b, depth, some holder⟩ ∧
    nodeAt? index holder = some statement ∧ HeaderBinds statement b name line

/-- The node declares the name directly in the body. -/
def Declares (body d : Nat) (name : String) (line : Int) : Prop :=
  isBodyAt index body = true ∧ ∃ range modifier typeName declared value depth,
    index[d]? = some ⟨.stmt (.declaration range modifier typeName declared value), depth, some body⟩ ∧
      declared.text = name ∧ range.start.line = line

/-- How the body binds the name when a node is visited: by its header, or else by the first of its
declarations that were visited before. -/
def Binds (body visit : Nat) (name : String) (line : Int) : Prop :=
  BindsImplicitly index body name line ∨
    (∀ l, ¬ BindsImplicitly index body name l) ∧
      ∃ d < visit, Declares index body d name line ∧ ∀ e < d, ∀ l, ¬ Declares index body e name l

/-- The body stands above a node. -/
def Encloses (body n : Nat) : Prop :=
  isBodyAt index body = true ∧
    Relation.TransGen (fun parent child => index[child]?.bind (·.parent) = some parent) body n

/-- The declaration makes a second variable of a name, which the nearest body around its own that
binds the name has bound on the line. -/
def Shadows (d : Nat) (line : Int) : Prop :=
  ∃ body name own, Declares index body d name own ∧
    (∀ l, ¬ BindsImplicitly index body name l) ∧
    (∀ e < d, ∀ l, ¬ Declares index body e name l) ∧
    ∃ around, Encloses index around body ∧ Binds index around d name line ∧
      ∀ between, Encloses index between body → Encloses index around between →
        ∀ l, ¬ Binds index between d name l

end

/-! ## Frames -/

/-- What is bound later counts only if the name is not bound yet. -/
theorem Frame.lookup_bind (frame : Frame) (name x : String) (line : Int) :
    (frame.bind name line).lookup x =
      (frame.lookup x).or (if name = x then some line else none) := by
  unfold bind
  cases hname : frame.lookup name with
  | some other =>
    by_cases hx : name = x
    · rw [← hx, hname]
      rfl
    · rw [if_neg hx, Option.or_none]
  | none =>
    have hsingle : List.lookup x [(name, line)] = if name = x then some line else none := by
      rw [List.lookup_cons, List.lookup_nil]
      by_cases hx : name = x
      · simp [hx]
      · have hbeq : (x == name) = false := beq_eq_false_iff_ne.2 (Ne.symm hx)
        simp [hbeq, hx]
    rw [List.lookup_append, hsingle]

theorem lookup_foldl_bind {α : Type} (name : α → String) (line : α → Int) (as : List α)
    (frame : Frame) (x : String) :
    (as.foldl (fun frame a => frame.bind (name a) (line a)) frame).lookup x =
      (frame.lookup x).or ((as.find? (name · == x)).map line) := by
  induction as generalizing frame with
  | nil => simp
  | cons a as ih =>
    rw [List.foldl_cons, ih, Frame.lookup_bind, Option.or_assoc]
    by_cases hx : name a = x
    · rw [if_pos hx, List.find?_cons_of_pos (by simp [hx])]
      rfl
    · rw [if_neg hx, List.find?_cons_of_neg (by simp [hx]), Option.none_or]

theorem lookup_ofParameters {parameters : List Parameter} {x : String} {line : Int} :
    (ofParameters parameters).lookup x = some line ↔
      ∃ front p behind, parameters = front ++ p :: behind ∧ p.name.text = x ∧
        (∀ q ∈ behind, q.name.text ≠ x) ∧ p.range.start.line = line := by
  rw [ofParameters, lookup_foldl_bind, List.lookup_nil, Option.none_or, Option.map_eq_some_iff]
  constructor
  · rintro ⟨p, hfind, hline⟩
    obtain ⟨hname, front, behind, hsplit, hfront⟩ := List.find?_eq_some_iff_append.1 hfind
    refine ⟨behind.reverse, p, front.reverse, ?_, by simpa using hname, fun q hq => ?_, hline⟩
    · rw [← List.reverse_inj, hsplit]
      simp
    · simpa using hfront q (List.mem_reverse.1 hq)
  · rintro ⟨front, p, behind, rfl, hname, hbehind, hline⟩
    refine ⟨p, List.find?_eq_some_iff_append.2 ⟨by simpa using hname, behind.reverse, front.reverse,
      by simp, fun q hq => ?_⟩, hline⟩
    simpa using hbehind q (List.mem_reverse.1 hq)

theorem lookup_ofLoop {name : Name} {x : String} {line : Int} :
    (ofLoop name).lookup x = some line ↔ name.text = x ∧ name.range.start.line = line := by
  have hsingle := Frame.lookup_bind [] name.text x name.range.start.line
  change (ofLoop name).lookup x = _ at hsingle
  rw [hsingle, List.lookup_nil, Option.none_or]
  simp

theorem lookup_headerFrame {statement : Node} {b : Block} {x : String} {line : Int}
    (hchild : .block b ∈ statement.children) :
    (headerFrame statement).lookup x = some line ↔ HeaderBinds statement b x line := by
  cases statement with
  | stmt s =>
    cases s with
    | countingLoop range counter first last step body =>
      obtain rfl : b = body := by
        simpa [Node.children, Stmt.children, Name.node, Node.ofExpr?] using hchild
      rw [headerFrame, lookup_ofLoop]
      constructor
      · rintro ⟨rfl, rfl⟩
        exact .counter
      · rintro ⟨⟩
        exact ⟨rfl, rfl⟩
    | iteratingLoop range element collection body =>
      obtain rfl : b = body := by simpa [Node.children, Stmt.children, Name.node] using hchild
      rw [headerFrame, lookup_ofLoop]
      constructor
      · rintro ⟨rfl, rfl⟩
        exact .element
      · rintro ⟨⟩
        exact ⟨rfl, rfl⟩
    | blockFunction range name parameters body =>
      obtain rfl : b = body := by simpa [Node.children, Stmt.children, Name.node] using hchild
      rw [headerFrame, lookup_ofParameters]
      constructor
      · rintro ⟨front, p, behind, rfl, rfl, hbehind, rfl⟩
        exact .parameter hbehind
      · intro h
        cases h with
        | parameter hlast => exact ⟨_, _, _, rfl, rfl, hlast, rfl⟩
    | _ => constructor <;> intro h <;> cases h
  | _ => constructor <;> intro h <;> cases h

/-! ## Reading bindings off the index -/

variable {program : Program} {body n d : Nat} {x : String} {line : Int}

theorem lookup_implicitFrame :
    (implicitFrame program.index body).lookup x = some line ↔
      BindsImplicitly program.index body x line := by
  constructor
  · intro h
    unfold implicitFrame at h
    split at h
    · rename_i b statement hblock hholder
      obtain ⟨holder, hparent, hstatement⟩ := Option.bind_eq_some_iff.1 hholder
      obtain ⟨depth, hget⟩ := Program.index_of_parentAt? hblock hparent
      obtain ⟨parent, hnode, hchild⟩ := Program.child_of_index hget
      obtain rfl : parent = statement := Option.some_inj.1 (hnode.symm.trans hstatement)
      exact ⟨b, depth, holder, parent, hget, hnode, (lookup_headerFrame hchild).1 h⟩
    · cases h
  · rintro ⟨b, depth, holder, statement, hget, hstatement, hbinds⟩
    obtain ⟨parent, hnode, hchild⟩ := Program.child_of_index hget
    obtain rfl : parent = statement := Option.some_inj.1 (hnode.symm.trans hstatement)
    have hblock : nodeAt? program.index body = some (.block b) := by
      rw [nodeAt?, hget]
      rfl
    have hholder : (parentAt? program.index body).bind (nodeAt? program.index) = some parent := by
      rw [Program.parentAt?_index, hget]
      exact hnode
    rw [implicitFrame, hblock, hholder]
    exact (lookup_headerFrame hchild).2 hbinds

/-- Only bodies hold declarations. -/
theorem isBody_of_declaration {parent : Node} {range : Range} {modifier : Option Modifier}
    {typeName : Option String} {name : Name} {value : Expr}
    (h : .stmt (.declaration range modifier typeName name value) ∈ parent.children) :
    parent.isBody = true := by
  cases parent with
  | program | block => rfl
  | stmt s =>
    cases s with
    | expression e => cases List.all_eq_true.1 (Node.isExpression_children_expr e) _ h
    | conditional b =>
      have hnodes : .stmt (.declaration range modifier typeName name value) ∈ b.otherwise.nodes := by
        simpa [Node.children, Stmt.children] using h
      cases hother : b.otherwise <;> simp [hother, Otherwise.nodes] at hnodes
    | _ => simp [Node.children, Stmt.children, Name.node, Node.ofExpr?] at h
  | expr e => cases List.all_eq_true.1 (Node.isExpression_children_expr e) _ h
  | namedArgument | parameter => simp [Node.children, Name.node, Node.ofExpr?] at h

/-- A declaration belongs to the body it hangs on. -/
theorem declares_iff : Declares program.index body d x line ↔
    ∃ range modifier typeName name value,
      nodeAt? program.index d = some (.stmt (.declaration range modifier typeName name value)) ∧
        bodyAbove? program.index d = some body ∧ name.text = x ∧ range.start.line = line := by
  constructor
  · rintro ⟨hbody, range, modifier, typeName, name, value, depth, hget, hname, hline⟩
    refine ⟨range, modifier, typeName, name, value, by rw [nodeAt?, hget]; rfl, ?_, hname, hline⟩
    have hparent : parentAt? program.index d = some body := by
      rw [Program.parentAt?_index, hget]
      rfl
    rw [Node.bodyAbove?_of_parentAt? hparent, if_pos hbody]
  · rintro ⟨range, modifier, typeName, name, value, hnode, habove, hname, hline⟩
    cases hparent : parentAt? program.index d with
    | none =>
      rw [Node.bodyAbove?_of_root hparent] at habove
      cases habove
    | some p =>
      obtain ⟨depth, hget⟩ := Program.index_of_parentAt? hnode hparent
      obtain ⟨parent, hp, hchild⟩ := Program.child_of_index hget
      have hbody : isBodyAt program.index p = true := by
        rw [isBodyAt, hp]
        exact isBody_of_declaration hchild
      rw [Node.bodyAbove?_of_parentAt? hparent, if_pos hbody, Option.some_inj] at habove
      subst habove
      exact ⟨hbody, range, modifier, typeName, name, value, depth, hget, hname, hline⟩

theorem declares_of_declaration {range : Range} {modifier : Option Modifier}
    {typeName : Option String} {name : Name} {value : Expr}
    (hnode : nodeAt? program.index d = some (.stmt (.declaration range modifier typeName name value)))
    (habove : bodyAbove? program.index d = some body) :
    Declares program.index body d x line ↔ name.text = x ∧ range.start.line = line := by
  rw [declares_iff]
  constructor
  · rintro ⟨_, _, _, _, _, hnode', -, h⟩
    rw [hnode] at hnode'
    cases hnode'
    exact h
  · exact fun h => ⟨range, modifier, typeName, name, value, hnode, habove, h⟩

/-- A name that is not bound is bound neither by the header nor by a declaration. -/
theorem forall_not_binds {index : Array Node.Entry} :
    (∀ l, ¬ Binds index body n x l) ↔
      (∀ l, ¬ BindsImplicitly index body x l) ∧ ∀ d < n, ∀ l, ¬ Declares index body d x l := by
  constructor
  · intro h
    have himplicit : ∀ l, ¬ BindsImplicitly index body x l := fun l hl => h l (.inl hl)
    refine ⟨himplicit, fun d hd => ?_⟩
    -- Of the declarations that there are the first one would bind the name.
    induction d using Nat.strongRecOn with
    | ind d ih =>
      intro l hl
      exact h l (.inr ⟨himplicit, d, hd, hl, fun e he => ih e he (Nat.lt_trans he hd)⟩)
  · rintro ⟨himplicit, hdeclares⟩ l (hl | ⟨-, d, hd, hl, -⟩)
    · exact himplicit l hl
    · exact hdeclares d hd l hl

/-- One more visit binds a name only by a declaration, and only if the name was not bound. -/
theorem binds_succ {index : Array Node.Entry} :
    Binds index body (n + 1) x line ↔
      Binds index body n x line ∨
        (∀ l, ¬ Binds index body n x l) ∧ Declares index body n x line := by
  constructor
  · rintro (himplicit | ⟨himplicit, d, hd, hl, hfirst⟩)
    · exact .inl (.inl himplicit)
    · rcases Nat.lt_or_eq_of_le (Nat.le_of_lt_succ hd) with hd | rfl
      · exact .inl (.inr ⟨himplicit, d, hd, hl, hfirst⟩)
      · exact .inr ⟨forall_not_binds.2 ⟨himplicit, hfirst⟩, hl⟩
  · rintro ((himplicit | ⟨himplicit, d, hd, hl, hfirst⟩) | ⟨hnot, hl⟩)
    · exact .inl himplicit
    · exact .inr ⟨himplicit, d, Nat.lt_succ_of_lt hd, hl, hfirst⟩
    · obtain ⟨himplicit, hfirst⟩ := forall_not_binds.1 hnot
      exact .inr ⟨himplicit, n, Nat.lt_succ_self n, hl, hfirst⟩

theorem lookup_frameAt_succ :
    (frameAt program.index body (n + 1)).lookup x = some line ↔
      (frameAt program.index body n).lookup x = some line ∨
        (frameAt program.index body n).lookup x = none ∧ Declares program.index body n x line := by
  rw [frameAt_succ]
  by_cases habove : bodyAbove? program.index n = some body
  · rw [if_pos habove]
    unfold declaredAt
    split
    · rename_i s hnode
      cases s with
      | declaration range modifier typeName name value =>
        rw [declared, Frame.lookup_bind, declares_of_declaration hnode habove]
        cases (frameAt program.index body n).lookup x with
        | some l => simp
        | none => simp
      | _ => simp [declared, declares_iff, hnode]
    · rename_i hnode
      refine ⟨.inl, ?_⟩
      rintro (h | ⟨-, hdeclares⟩)
      · exact h
      · obtain ⟨_, _, _, _, _, hdeclaration, -⟩ := declares_iff.1 hdeclares
        exact absurd hdeclaration (hnode _)
  · simp [habove, declares_iff]

theorem lookup_frameAt :
    (frameAt program.index body n).lookup x = some line ↔ Binds program.index body n x line := by
  induction n generalizing line with
  | zero =>
    refine lookup_implicitFrame.trans ⟨.inl, ?_⟩
    rintro (h | ⟨-, d, hd, -⟩)
    · exact h
    · exact absurd hd (Nat.not_lt_zero d)
  | succ n ih =>
    rw [lookup_frameAt_succ, binds_succ, ih, Option.eq_none_iff_forall_not_mem]
    simp only [Option.mem_def, ih]

/-! ## Bodies around a body -/

theorem encloses_lt {around : Nat} (h : Encloses program.index around n) : around < n := by
  have hlink {p c : Nat} (hp : program.index[c]?.bind (·.parent) = some p) : p < c :=
    Node.parentAt?_lt ((Program.parentAt?_index program c).trans hp)
  obtain ⟨-, hpath⟩ := h
  induction hpath with
  | single hp => exact hlink hp
  | tail _ hp ih => exact Nat.lt_trans ih (hlink hp)

/-- A body stands above a node if it is its parent or stands above that. -/
theorem encloses_iff_of_parent {around p : Nat} (h : parentAt? program.index n = some p) :
    Encloses program.index around n ↔
      isBodyAt program.index around = true ∧ around = p ∨ Encloses program.index around p := by
  rw [Program.parentAt?_index] at h
  constructor
  · rintro ⟨hbody, hpath⟩
    rcases (Relation.transGen_iff _ _ _).1 hpath with hlink | ⟨c, hpath, hlink⟩
    · rw [h, Option.some_inj] at hlink
      exact .inl ⟨hbody, hlink.symm⟩
    · rw [h, Option.some_inj] at hlink
      exact .inr ⟨hbody, hlink ▸ hpath⟩
  · rintro (⟨hbody, rfl⟩ | ⟨hbody, hpath⟩)
    · exact ⟨hbody, .single h⟩
    · exact ⟨hbody, hpath.tail h⟩

theorem not_encloses_of_root {around : Nat} (h : parentAt? program.index n = none) :
    ¬ Encloses program.index around n := by
  rw [Program.parentAt?_index] at h
  rintro ⟨-, hpath⟩
  rcases (Relation.transGen_iff _ _ _).1 hpath with hlink | ⟨c, -, hlink⟩
  · rw [h] at hlink
    cases hlink
  · rw [h] at hlink
    cases hlink

/-- The bodies above a node are the nearest one and those above that. -/
theorem encloses_iff {around nearest : Nat} (h : bodyAbove? program.index n = some nearest) :
    Encloses program.index around n ↔ around = nearest ∨ Encloses program.index around nearest := by
  fun_induction bodyAbove? program.index n with
  | case1 => cases h
  | case2 n p hparent hlt hbody =>
    cases h
    rw [encloses_iff_of_parent hparent]
    exact or_congr_left ⟨And.right, fun heq => ⟨heq ▸ hbody, heq⟩⟩
  | case3 n p hparent hlt hbody ih =>
    rw [encloses_iff_of_parent hparent, ← ih h]
    refine or_iff_right ?_
    rintro ⟨hthere, rfl⟩
    exact hbody hthere

theorem not_encloses {around : Nat} (h : bodyAbove? program.index n = none) :
    ¬ Encloses program.index around n := by
  fun_induction bodyAbove? program.index n with
  | case1 n hroot => exact not_encloses_of_root hroot
  | case2 => cases h
  | case3 n p hparent hlt hbody ih =>
    rw [encloses_iff_of_parent hparent]
    rintro (⟨hthere, rfl⟩ | habove)
    · exact hbody hthere
    · exact ih h habove

theorem lookup_cons (frame : Frame) (frames : List Frame) :
    lookup (frame :: frames) x = some line ↔
      frame.lookup x = some line ∨ frame.lookup x = none ∧ lookup frames x = some line := by
  rw [lookup, List.findSome?_cons]
  cases frame.lookup x with
  | some l => simp
  | none => simp [lookup]

/-- The scopes around a body are searched from the nearest body outwards. -/
theorem lookup_framesAround :
    lookup (framesAround program.index body n) x = some line ↔
      ∃ around, Encloses program.index around body ∧ Binds program.index around n x line ∧
        ∀ between, Encloses program.index between body → Encloses program.index around between →
          ∀ l, ¬ Binds program.index between n x l := by
  fun_induction framesAround program.index body n with
  | case1 body hnone =>
    constructor
    · intro h
      cases h
    · rintro ⟨around, habove, -⟩
      exact absurd habove (not_encloses hnone)
  | case2 body nearest hnearest hlt ih =>
    rw [lookup_cons, lookup_frameAt, ih, Option.eq_none_iff_forall_not_mem]
    simp only [Option.mem_def, lookup_frameAt]
    constructor
    · rintro (hbinds | ⟨hnot, around, habove, hbinds, hbetween⟩)
      · refine ⟨nearest, (encloses_iff hnearest).2 (.inl rfl), hbinds, fun between hin hout => ?_⟩
        -- No body stands between a body and the nearest one around it.
        rcases (encloses_iff hnearest).1 hin with rfl | hin
        · exact absurd (encloses_lt hout) (Nat.lt_irrefl _)
        · exact absurd (Nat.lt_trans (encloses_lt hout) (encloses_lt hin)) (Nat.lt_irrefl _)
      · refine ⟨around, (encloses_iff hnearest).2 (.inr habove), hbinds, fun between hin hout => ?_⟩
        rcases (encloses_iff hnearest).1 hin with rfl | hin
        · exact hnot
        · exact hbetween between hin hout
    · rintro ⟨around, habove, hbinds, hbetween⟩
      have hself : Encloses program.index nearest body := (encloses_iff hnearest).2 (.inl rfl)
      rcases (encloses_iff hnearest).1 habove with rfl | habove
      · exact .inl hbinds
      · refine .inr ⟨hbetween nearest hself habove, around, habove, hbinds, fun between hin hout => ?_⟩
        exact hbetween between ((encloses_iff hnearest).2 (.inr hin)) hout

/-! ## Reports -/

/-- The line of the binding that a node shadows, if it shadows one. -/
def shadowed? (index : Array Node.Entry) (d : Nat) : Option Int :=
  match nodeAt? index d, bodyAbove? index d with
  | some (.stmt (.declaration _ _ _ name _)), some body =>
    match (frameAt index body d).lookup name.text with
    | none => lookup (framesAround index body d) name.text
    | some _ => none
  | _, _ => none

/-- The diagnostic reports that the declaration shadows a binding on the line. -/
def Reports (index : Array Node.Entry) (finding : Nat × Int) (diagnostic : Diagnostic) : Prop :=
  ∃ range modifier typeName name value,
    nodeAt? index finding.1 = some (.stmt (.declaration range modifier typeName name value)) ∧
      diagnostic =
        { code := id, message := message name.text finding.2, severity := .warning, range }

theorem judgeAt_cases (index : Array Node.Entry) (d : Nat) :
    shadowed? index d = none ∧ judgeAt index d = [] ∨
      ∃ line diagnostic, shadowed? index d = some line ∧ judgeAt index d = [diagnostic] ∧
        Reports index (d, line) diagnostic := by
  unfold judgeAt
  split
  · rename_i range modifier typeName name value body hnode habove
    simp only [shadowed?, hnode, habove, judge]
    cases (frameAt index body d).lookup name.text with
    | some own => exact .inl ⟨rfl, rfl⟩
    | none =>
      cases lookup (framesAround index body d) name.text with
      | none => exact .inl ⟨rfl, rfl⟩
      | some line =>
        exact .inr ⟨line, _, rfl, rfl, range, modifier, typeName, name, value, hnode, rfl⟩
  · rename_i hother
    refine .inl ⟨?_, rfl⟩
    unfold shadowed?
    split
    · rename_i hnode habove
      exact absurd habove (hother _ _ _ _ _ _ hnode)
    · rfl

theorem shadowed?_eq_some : shadowed? program.index d = some line ↔ Shadows program.index d line := by
  constructor
  · intro h
    unfold shadowed? at h
    split at h
    · rename_i range modifier typeName name value body hnode habove
      cases hframe : (frameAt program.index body d).lookup name.text with
      | some own =>
        rw [hframe] at h
        cases h
      | none =>
        rw [hframe] at h
        have hnot : ∀ l, ¬ Binds program.index body d name.text l := fun l hl => by
          rw [lookup_frameAt.2 hl] at hframe
          cases hframe
        obtain ⟨himplicit, hfirst⟩ := forall_not_binds.1 hnot
        have hself := (declares_of_declaration hnode habove).2 ⟨rfl, rfl⟩
        exact ⟨body, name.text, _, hself, himplicit, hfirst, lookup_framesAround.1 h⟩
    · cases h
  · rintro ⟨body, x, own, hself, himplicit, hfirst, haround⟩
    obtain ⟨range, modifier, typeName, name, value, hnode, habove, rfl, -⟩ := declares_iff.1 hself
    have hframe : (frameAt program.index body d).lookup name.text = none := by
      refine Option.eq_none_iff_forall_not_mem.2 fun l hl => ?_
      exact forall_not_binds.2 ⟨himplicit, hfirst⟩ l (lookup_frameAt.1 hl)
    simp only [shadowed?, hnode, habove, hframe]
    exact lookup_framesAround.2 haround

/-- The node with the line that it shadows, if it shadows one. -/
def finding? (index : Array Node.Entry) (d : Nat) : Option (Nat × Int) :=
  (shadowed? index d).map (d, ·)

theorem finding?_eq_some {index : Array Node.Entry} {f : Nat × Int} :
    finding? index d = some f ↔ f.1 = d ∧ shadowed? index d = some f.2 := by
  obtain ⟨d', line⟩ := f
  simp only [finding?, Option.map_eq_some_iff, Prod.mk.injEq]
  constructor
  · rintro ⟨_, h, rfl, rfl⟩
    exact ⟨rfl, h⟩
  · rintro ⟨rfl, h⟩
    exact ⟨line, h, rfl, rfl⟩

theorem lt_size_of_shadowed? {index : Array Node.Entry} (h : shadowed? index d = some line) :
    d < index.size := by
  unfold shadowed? at h
  split at h
  · rename_i hnode _
    obtain ⟨e, hget, -⟩ := Option.map_eq_some_iff.1 hnode
    exact (Array.getElem?_eq_some_iff.1 hget).1
  · cases h

theorem reports_findings (index : Array Node.Entry) (ds : List Nat) :
    List.Forall₂ (Reports index) (ds.filterMap (finding? index)) (ds.flatMap (judgeAt index)) := by
  induction ds with
  | nil => exact .nil
  | cons d ds ih =>
    rw [List.flatMap_cons]
    rcases judgeAt_cases index d with ⟨hnone, hjudge⟩ | ⟨line, diagnostic, hsome, hjudge, hreports⟩
    · have hfinding : finding? index d = none := by rw [finding?, hnone, Option.map_none]
      rw [List.filterMap_cons_none hfinding, hjudge, List.nil_append]
      exact ih
    · have hfinding : finding? index d = some (d, line) := finding?_eq_some.2 ⟨rfl, hsome⟩
      rw [List.filterMap_cons_some hfinding, hjudge, List.singleton_append]
      exact .cons hreports ih

/-- The declarations that shadow a name are reported, each once, in the order of visits and with the
line of the binding that the nearest body around has. Nothing else is reported. -/
theorem check_reports_shadows (program : Program) :
    ∃ found : List (Nat × Int), found.Pairwise (fun a b => a.1 < b.1) ∧
      (∀ d line, (d, line) ∈ found ↔ Shadows program.index d line) ∧
      List.Forall₂ (Reports program.index) found (check program) := by
  refine ⟨(List.range program.index.size).filterMap (finding? program.index), ?_, fun d line => ?_, ?_⟩
  · refine List.pairwise_filterMap.2 (List.pairwise_lt_range.imp fun hlt a ha b hb => ?_)
    rwa [(finding?_eq_some.1 ha).1, (finding?_eq_some.1 hb).1]
  · rw [List.mem_filterMap, ← shadowed?_eq_some]
    constructor
    · rintro ⟨d', -, hfinding⟩
      obtain ⟨rfl, hsome⟩ := finding?_eq_some.1 hfinding
      exact hsome
    · intro hsome
      exact ⟨d, List.mem_range.2 (lt_size_of_shadowed? hsome), finding?_eq_some.2 ⟨rfl, hsome⟩⟩
  · rw [check_eq_judgeAt]
    exact reports_findings program.index _

end PineScript.Rule.Shadowing
