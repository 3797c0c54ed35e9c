import PineScript.Proofs.Parser.KeptScript

/-!
# Reading in front of a line

A reader that stops in front of a line looks at most at the first code of it, or, inside brackets, at
its code alone. So if the lines from there on are exchanged for others with the same code, the reader
gives the same value or stops at the same fault, and stops at the same place. One that goes on into
these lines may do something else with them.
-/

namespace PineScript

/-- The same reply, with other tokens left. -/
def Reply.leaving {α : Type} : Reply α → List Token → Reply α
  | ok a _, rest => ok a rest
  | fault e _, rest => fault e rest

/-- The lines are exchanged, and nothing else varies. -/
def Exchange.variation (E : Exchange) : Variation :=
  ⟨.exchange E, Eq, fun _ => rfl, id, fun _ _ => rfl⟩

theorem Fault.Like.eq {E : Exchange} {e e' : Fault} (h : Fault.Like E.variation e e') : e = e' := by
  obtain ⟨cause, range⟩ := e
  obtain ⟨rfl, hrange⟩ := h
  exact congrArg (Fault.mk _) hrange

namespace Parser

variable {E : Exchange} {ctx : Context} {ts : List Token} {α : Type} {p : Parser α}

/-- If the reader stops in front of the lines, then it does the same with the other lines behind. -/
structure Withstands (E : Exchange) (p : Parser α) (ctx : Context) (ts : List Token) : Prop where
  suffix : (p ctx ts).rest <:+ ts
  same : ∀ front left, ts = front ++ E.before → (p ctx ts).rest = left ++ E.before →
    p ctx (front ++ E.after) = (p ctx ts).leaving (left ++ E.after)

theorem Withstands.of_stay {r : Reply α} (hrest : r.rest = ts) (hp : p ctx ts = r)
    (hq : ∀ front, ts = front ++ E.before →
      p ctx (front ++ E.after) = r.leaving (front ++ E.after)) : Withstands E p ctx ts := by
  constructor
  · rw [hp]
    exact hrest ▸ List.suffix_refl _
  · intro front left hts hleft
    rw [hp, hrest] at hleft
    rw [hp, hq front hts, List.append_cancel_right (hts.symm.trans hleft)]

theorem varied_exchange (E : Exchange) (front : List Token) :
    Varied E.variation (front ++ E.before) (front ++ E.after) :=
  Varied.append_left (.ends rfl rfl) front

theorem lookahead_zero_exchange (E : Exchange) (front : List Token) :
    ctx.lookahead 0 (front ++ E.after) = ctx.lookahead 0 (front ++ E.before) := by
  rcases (varied_exchange E front).lookahead_zero ctx with ⟨r, hsame, hnear, -⟩ | ⟨hheeds, -⟩
  · exact hsame.trans (hnear ▸ rfl)
  · cases hheeds

theorem Mended.Like.eq {m m' : Mended α} (h : Mended.Like E.variation m m') : m = m' := by
  obtain ⟨value, faults⟩ := m
  obtain ⟨rfl, hfaults⟩ := h
  have heq := hfaults.imp fun _ _ => Fault.Like.eq
  rw [List.forall₂_eq_eq_eq] at heq
  exact congrArg (Mended.mk _) heq

theorem Keeps.withstands {S : Scale E.variation α} {b : Bool} (hlike : ∀ a a', S.like a a' → a = a')
    (h : Keeps E.variation S b p p ctx ts) : Withstands E p ctx ts := by
  refine ⟨h.suffix, fun front left hts hleft => ?_⟩
  subst hts
  have hlen : E.before.length ≤ (p ctx (front ++ E.before)).rest.length := by
    rw [hleft, List.length_append]
    exact Nat.le_add_left ..
  have hmatch := h.same (fun _ _ => .inl rfl) _ (varied_exchange E front) ⟨⟨hlen, .inl rfl⟩, .inl rfl⟩
  change Matches _ _ _ (p ctx (front ++ E.after)) at hmatch
  -- The tokens that are left have the same front.
  have hrest : ∀ rest rest', rest = left ++ E.before → Varied E.variation rest rest' →
      rest' = left ++ E.after := by
    intro rest rest' hold hvaried
    obtain ⟨us, hus, hus'⟩ := hvaried.exists_front (fun _ _ => id) (by intro h; cases h)
    exact hus'.trans (congrArg (· ++ E.after) (List.append_cancel_right (hus.symm.trans hold)))
  revert hmatch hleft
  generalize p ctx (front ++ E.before) = r
  generalize p ctx (front ++ E.after) = r'
  rintro hleft (⟨ha, hvaried⟩ | ⟨he, hvaried⟩)
  · rw [hrest _ _ hleft hvaried, ← hlike _ _ ha]
    rfl
  · rw [hrest _ _ hleft hvaried, ← he.eq]
    rfl

theorem withstands_of_steady (h : Steady E.variation p ctx ts) : Withstands E p ctx ts :=
  h.withstands fun _ _ => id

theorem withstands_of_lasts {p : Parser (Mended α)} (h : Lasts E.variation p ctx ts) :
    Withstands E p ctx ts :=
  h.withstands fun _ _ => Mended.Like.eq

theorem startsFunction_withstands (hctx : ctx.bracketed = false) (ts : List Token) (E : Exchange) :
    Withstands E startsFunction ctx ts := by
  refine .of_stay (r := startsFunction ctx ts) (by rw [startsFunction_eq]; rfl) rfl fun front hts => ?_
  subst hts
  exact startsFunction_varied hctx (varied_exchange E front) (.inl rfl) rfl

theorem suiteItem_withstands {read : Int → Parser (Mended Stmt)} {indent : Int}
    (hread : ∀ E finish ts, Lasts (Exchange.variation E) (read indent) ⟨finish, false, none⟩ ts)
    (ts : List Token) (E : Exchange) : Withstands E (suiteItem read indent) ctx ts := by
  refine (suiteItem_keeps (b := false) (hread E) (.inl rfl) ts).withstands fun o o' hlike => ?_
  cases hlike with
  | none => rfl
  | some hitem => exact congrArg some hitem.eq

end Parser

end PineScript
