import Mathlib

/-!
# Matching labelled items one to one

Items carrying labels can be matched injectively to witnesses carrying the
same labels exactly when no label occurs more often on the items than on the
witnesses.  Over lists the fibres are counted by `countP`.
-/

namespace Matching

variable {α β γ : Type*}

/-- The items matched injectively to witnesses of equal label. -/
def Matched (label : α → γ) (witness : β → γ) : Prop :=
  ∃ f : α → β, Function.Injective f ∧ ∀ a, witness (f a) = label a

/-- Embeddings of every fibre assemble into a matching. -/
theorem matched_of_fibers {label : α → γ} {witness : β → γ}
    (h : ∀ c, Nonempty ({a // label a = c} ↪ {b // witness b = c})) : Matched label witness := by
  obtain ⟨emb⟩ := Classical.nonempty_pi.mpr h
  refine ⟨fun a ↦ (emb (label a) ⟨a, rfl⟩).1, fun a a' haa ↦ ?_,
    fun a ↦ (emb (label a) ⟨a, rfl⟩).2⟩
  have hfib : ∀ c (x : {a // label a = c}), emb (label x.1) ⟨x.1, rfl⟩ = (emb c x).1 := by
    rintro c ⟨x, rfl⟩
    rfl
  have hlabel : label a' = label a := by
    rw [← (emb (label a) ⟨a, rfl⟩).2, ← (emb (label a') ⟨a', rfl⟩).2]
    exact congrArg witness haa.symm
  have hsame : emb (label a) ⟨a, rfl⟩ = emb (label a) ⟨a', hlabel⟩ :=
    Subtype.ext (haa.trans (hfib _ ⟨a', hlabel⟩))
  exact congrArg Subtype.val ((emb (label a)).injective hsame)

theorem Matched.fiber {label : α → γ} {witness : β → γ} (h : Matched label witness) (c : γ) :
    Nonempty ({a // label a = c} ↪ {b // witness b = c}) := by
  obtain ⟨f, hf, hl⟩ := h
  exact ⟨⟨fun x ↦ ⟨f x.1, (hl x.1).trans x.2⟩,
    fun x y hxy ↦ Subtype.ext (hf (congrArg Subtype.val hxy))⟩⟩

theorem matched_iff_card [Fintype α] [Fintype β] [DecidableEq γ] {label : α → γ}
    {witness : β → γ} :
    Matched label witness ↔
      ∀ c, Fintype.card {a // label a = c} ≤ Fintype.card {b // witness b = c} := by
  constructor
  · exact fun h c ↦ Function.Embedding.nonempty_iff_card_le.mp (h.fiber c)
  · exact fun h ↦ matched_of_fibers fun c ↦ Function.Embedding.nonempty_iff_card_le.mpr (h c)

/-- The positions of a list whose entries satisfy `p` are as many as `countP` says. -/
theorem card_positions (l : List α) (p : α → Prop) [DecidablePred p] :
    Fintype.card {i : Fin l.length // p l[i]} = l.countP (p ·) := by
  rw [Fintype.card_subtype]
  induction l with
  | nil => rfl
  | cons a l ih =>
      rw [List.countP_cons, ← ih]
      refine (Fin.card_filter_univ_succ _).trans ?_
      by_cases ha : p a <;> simp [ha]

/-- Among the positions whose entries satisfy `p`, those of a given label. -/
theorem card_labelled_positions [DecidableEq γ] (l : List α) (p : α → Prop) [DecidablePred p]
    (label : α → γ) (c : γ) :
    Fintype.card {i : {i : Fin l.length // p l[i]} // label l[i.1] = c} =
      l.countP fun a ↦ p a ∧ label a = c := by
  rw [← card_positions]
  exact Fintype.card_congr (Equiv.subtypeSubtypeEquivSubtypeInter (fun i : Fin l.length ↦ p l[i])
    fun i ↦ label l[i] = c)

end Matching
