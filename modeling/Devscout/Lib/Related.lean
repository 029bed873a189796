/-
# Devscout.Lib.Related -- descending parsers over related tokens

Two token lists are related when their tokens are, one by one. Parsers that look at related
tokens in the same way refuse together, and otherwise leave related tokens and give related
readings. Sequence, choice, options and loops keep that, so it is proved of a parser along
its own structure: what a parser does not look at in its tokens, it carries along as it is.
-/

import Devscout.Lib.Grammar
import Mathlib

namespace Devscout.Lib.Grammar

open Step

variable {τ τ' ρ ρ' : Type}

section Relations

variable (T : τ → τ' → Prop) (R : ρ → ρ' → Prop)

/-- Both refuse, or what they leave and what they read is related. -/
inductive Agree : Option (List τ × List ρ) → Option (List τ' × List ρ') → Prop
  | none : Agree none none
  | some {us us' rs rs'} (hleft : List.Forall₂ T us us') (hread : List.Forall₂ R rs rs') :
      Agree (some (us, rs)) (some (us', rs'))

def Related (f : Step τ ρ) (f' : Step τ' ρ') : Prop :=
  ∀ ts ts', List.Forall₂ T ts ts' → Agree T R (f ts) (f' ts')

/-- Two readings of a token. -/
def ReadAlike (emit : τ → Option (List ρ)) (emit' : τ' → Option (List ρ')) : Prop :=
  ∀ t t', T t t' → Option.Rel (List.Forall₂ R) (emit t) (emit' t')

/-- Two tests of the next tokens. -/
def TestAlike (ok : List τ → Bool) (ok' : List τ' → Bool) : Prop :=
  ∀ ts ts', List.Forall₂ T ts ts' → ok ts = ok' ts'

end Relations

variable {T : τ → τ' → Prop} {R : ρ → ρ' → Prop} {f g : Step τ ρ} {f' g' : Step τ' ρ'}
  {ok : List τ → Bool} {ok' : List τ' → Bool}

theorem Related.fail : Related T R fail fail := fun _ _ _ => .none

theorem Related.done {ts : List τ} {ts' : List τ'} (h : List.Forall₂ T ts ts') :
    Agree T R (some (ts, [])) (some (ts', [])) := .some h .nil

theorem Related.next {emit : τ → Option (List ρ)} {emit' : τ' → Option (List ρ')}
    (h : ReadAlike T R emit emit') : Related T R (next emit) (next emit') := by
  intro ts ts' hts
  rcases hts with _ | ⟨ht, hus⟩
  · exact .none
  · rename_i t t' us us'
    have hemit := h t t' ht
    show Agree T R ((emit t).map fun rs => (us, rs)) ((emit' t').map fun rs => (us', rs))
    generalize emit t = read, emit' t' = read' at hemit ⊢
    rcases hemit with hrs | _
    · exact .some hus hrs
    · exact .none

theorem Related.check (h : TestAlike T ok ok') : Related T R (check ok) (check ok') := by
  intro ts ts' hts
  unfold Step.check
  rw [h ts ts' hts]
  split
  · exact Related.done hts
  · exact .none

theorem Related.andThen (hf : Related T R f f') (hg : Related T R g g') :
    Related T R (f.andThen g) (f'.andThen g') := by
  intro ts ts' hts
  have hfirst := hf ts ts' hts
  unfold Step.andThen
  generalize f ts = first, f' ts' = first' at hfirst ⊢
  rcases hfirst with _ | ⟨hvs, hread⟩
  · exact .none
  · rename_i vs vs' rs₁ rs₁'
    show Agree T R ((g vs).map fun r => (r.1, rs₁ ++ r.2)) ((g' vs').map fun r => (r.1, rs₁' ++ r.2))
    have hsecond := hg vs vs' hvs
    generalize g vs = second, g' vs' = second' at hsecond ⊢
    rcases hsecond with _ | ⟨hus, hmore⟩
    · exact .none
    · exact .some hus (List.rel_append hread hmore)

theorem Related.choose (hok : TestAlike T ok ok') (hf : Related T R f f') (hg : Related T R g g') :
    Related T R (choose ok f g) (choose ok' f' g') := by
  intro ts ts' hts
  unfold Step.choose
  rw [hok ts ts' hts]
  split
  · exact hf ts ts' hts
  · exact hg ts ts' hts

theorem Related.whenever (hok : TestAlike T ok ok') (hf : Related T R f f') :
    Related T R (whenever ok f) (whenever ok' f') := by
  intro ts ts' hts
  unfold Step.whenever
  rw [hok ts ts' hts]
  split
  · exact hf ts ts' hts
  · exact Related.done hts

/-- **Loops** take as many turns on both sides. -/
theorem Related.loop (hok : TestAlike T ok ok') (hf : Related T R f f') :
    Related T R (loop ok f) (loop ok' f') := by
  have hturns : ∀ k, Related T R (turns ok f k) (turns ok' f' k) := by
    intro k
    induction k with
    | zero =>
        intro ts ts' hts
        rw [turns, turns, hok ts ts' hts]
        split
        · exact .none
        · exact Related.done hts
    | succ k ih =>
        intro ts ts' hts
        rw [turns, turns, hok ts ts' hts]
        split
        · exact hf.andThen ih ts ts' hts
        · exact Related.done hts
  intro ts ts' hts
  show Agree T R (turns ok f ts.length ts) (turns ok' f' ts'.length ts')
  rw [hts.length_eq]
  exact hturns _ ts ts' hts

end Devscout.Lib.Grammar
