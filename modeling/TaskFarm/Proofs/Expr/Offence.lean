import Mathlib.Data.List.Induction
import TaskFarm.Expr.CompileError
import TaskFarm.Expr.Token
import TaskFarm.Proofs.Expr.Span

/-!
# The first offence

A pass over a token list ends at the first token that it cannot take.  A rule says which error a
token is behind the tokens before it, and the first offence of a list is that of its first token
that breaks the rule.  Both passes behind the scanner are described in this way, each with a rule of
its own, and their proofs follow the list token by token from the left.
-/

namespace TaskFarm.Expr

variable {offends : List Token → Token → CompileError → Prop} {tokens : List Token} {t : Token}
  {e : CompileError}

/-- No token breaks the rule. -/
def Inoffensive (offends : List Token → Token → CompileError → Prop)
    (tokens : List Token) : Prop :=
  ∀ before t after, tokens = before ++ t :: after → ∀ e, ¬offends before t e

/-- The error is that of the first token that breaks the rule. -/
def FirstOffence (offends : List Token → Token → CompileError → Prop) (tokens : List Token)
    (e : CompileError) : Prop :=
  ∃ before t after, tokens = before ++ t :: after ∧ Inoffensive offends before ∧
    offends before t e

theorem inoffensive_nil : Inoffensive offends [] := by
  intro before t after h
  simp at h

/-- What is true of a token of a longer list is true of one of the shorter list or of the last one. -/
theorem exists_split_concat {P : List Token → Token → Prop} :
    (∃ before u after, tokens ++ [t] = before ++ u :: after ∧ P before u) ↔
      (∃ before u after, tokens = before ++ u :: after ∧ P before u) ∨ P tokens t := by
  constructor
  · rintro ⟨before, u, after, hsplit, hu⟩
    rcases append_eq_append_cons hsplit with ⟨middle, rfl, -⟩ | ⟨middle, rfl, ht⟩
    · exact .inl ⟨before, u, middle, rfl, hu⟩
    · rcases List.singleton_eq_append_iff.mp ht with ⟨rfl, hlast⟩ | ⟨-, hnil⟩
      · obtain ⟨rfl, -⟩ := List.cons_eq_cons.mp hlast
        rw [List.append_nil] at hu
        exact .inr hu
      · cases hnil
  · rintro (⟨before, u, after, rfl, hu⟩ | ht)
    · exact ⟨before, u, after ++ [t], by simp, hu⟩
    · exact ⟨tokens, t, [], rfl, ht⟩

theorem inoffensive_concat :
    Inoffensive offends (tokens ++ [t]) ↔
      Inoffensive offends tokens ∧ ∀ e, ¬offends tokens t e := by
  constructor
  · intro h
    refine ⟨fun before u after hsplit => ?_, h tokens t [] rfl⟩
    exact h before u (after ++ [t]) (by simp [hsplit])
  · rintro ⟨h, hlast⟩ before u after hsplit e hu
    have hsome := (exists_split_concat (P := fun before u => offends before u e)).mp
      ⟨before, u, after, hsplit, hu⟩
    rcases hsome with ⟨before', u', after', hsplit', hu'⟩ | ht
    · exact h before' u' after' hsplit' e hu'
    · exact hlast e ht

/-- The first offence of a longer list is that of the shorter one, or there is none in it and the
last token offends. -/
theorem firstOffence_concat :
    FirstOffence offends (tokens ++ [t]) e ↔
      FirstOffence offends tokens e ∨ (Inoffensive offends tokens ∧ offends tokens t e) :=
  exists_split_concat

/-- Unless every token keeps the rule, some token is the first one to break it. -/
theorem inoffensive_iff : Inoffensive offends tokens ↔ ∀ e, ¬FirstOffence offends tokens e := by
  constructor
  · rintro h e ⟨before, t, after, rfl, -, ht⟩
    exact h before t after rfl e ht
  · intro h
    induction tokens using List.reverseRecOn with
    | nil => exact inoffensive_nil
    | append_singleton tokens t ih =>
        have hbefore : Inoffensive offends tokens :=
          ih fun e he => h e (firstOffence_concat.mpr (.inl he))
        exact inoffensive_concat.mpr
          ⟨hbefore, fun e he => h e (firstOffence_concat.mpr (.inr ⟨hbefore, he⟩))⟩

end TaskFarm.Expr
