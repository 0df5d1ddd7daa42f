import Mathlib

/-!
# Gathering what several sources have

Sources are asked one by one, and each of them answers with everything it has or with nothing. Of
some sources, the owners, it matters that nothing is missing. What is gathered is, up to order,
what the owners have that were asked and answered, and what the other sources have that answered
(`gathered_perm`). So everything of the owners is there exactly if the others make up for the
owners that were not heard (`subperm_gathered_iff`).

No order of the answers is assumed, and an element may be had by several sources or several times
by one; all comparisons count it as often as it occurs.
-/

namespace ShardDB.Lib

section Contribution

variable {ι α : Type}

/-- What a source adds. -/
def contribution (answers : ι → Bool) (owed : ι → List α) (i : ι) : List α :=
  if answers i then owed i else []

theorem flatMap_contribution (answers : ι → Bool) (owed : ι → List α) (l : List ι) :
    l.flatMap (contribution answers owed) = (l.filter answers).flatMap owed := by
  induction l with
  | nil => rfl
  | cons i l ih =>
    rw [List.flatMap_cons, ih, contribution]
    cases hAnswer : answers i with
    | true => rw [if_pos rfl, List.filter_cons_of_pos hAnswer, List.flatMap_cons]
    | false => rw [if_neg (by simp), List.filter_cons_of_neg (by simp [hAnswer]), List.nil_append]

end Contribution

section Owners

variable {ι α : Type} [DecidableEq ι] {asked owners : List ι} {answers : ι → Bool}
  {owed : ι → List α}

/-- Sources that were asked and answered. -/
def heard (asked : List ι) (answers : ι → Bool) (sources : List ι) : List ι :=
  sources.filter fun i => i ∈ asked && answers i

/-- Sources that were not asked or did not answer. -/
def unheard (asked : List ι) (answers : ι → Bool) (sources : List ι) : List ι :=
  sources.filter fun i => !(i ∈ asked && answers i)

/-- Sources that were asked and answered but are no owners. -/
def bystanders (asked : List ι) (answers : ι → Bool) (owners : List ι) : List ι :=
  asked.filter fun i => i ∉ owners && answers i

/-- The sources that answered are owners that were heard, or bystanders. -/
theorem answered_perm (hAsked : asked.Nodup) (hOwners : owners.Nodup) :
    (asked.filter answers).Perm
      (heard asked answers owners ++ bystanders asked answers owners) := by
  have hSplit := List.filter_append_perm (fun i => decide (i ∈ owners)) (asked.filter answers)
  have hHeard : ((asked.filter answers).filter fun i => decide (i ∈ owners)).Perm
      (heard asked answers owners) := by
    unfold heard
    rw [List.perm_ext_iff_of_nodup ((hAsked.filter _).filter _) (hOwners.filter _)]
    intro i
    simp only [List.mem_filter, Bool.and_eq_true, decide_eq_true_eq]
    exact and_comm
  have hOthers : ((asked.filter answers).filter fun i => !decide (i ∈ owners)) =
      bystanders asked answers owners := by
    rw [bystanders, List.filter_filter]
    simp only [decide_not]
  rw [hOthers] at hSplit
  exact hSplit.symm.trans (hHeard.append_right _)

/-- What is gathered, up to order. -/
theorem gathered_perm (hAsked : asked.Nodup) (hOwners : owners.Nodup) :
    (asked.flatMap (contribution answers owed)).Perm
      ((heard asked answers owners).flatMap owed ++
        (bystanders asked answers owners).flatMap owed) := by
  rw [flatMap_contribution, ← List.flatMap_append]
  exact (answered_perm hAsked hOwners).flatMap_right owed

theorem owed_perm (asked owners : List ι) (answers : ι → Bool) (owed : ι → List α) :
    (owners.flatMap owed).Perm
      ((heard asked answers owners).flatMap owed ++
        (unheard asked answers owners).flatMap owed) := by
  rw [← List.flatMap_append]
  exact (List.filter_append_perm _ owners).symm.flatMap_right owed

/-- Nothing of the owners is missing if and only if the bystanders have as much of everything as
the owners that were not heard. -/
theorem subperm_gathered_iff (hAsked : asked.Nodup) (hOwners : owners.Nodup) :
    (owners.flatMap owed).Subperm (asked.flatMap (contribution answers owed)) ↔
      ((unheard asked answers owners).flatMap owed).Subperm
        ((bystanders asked answers owners).flatMap owed) := by
  rw [(gathered_perm hAsked hOwners).subperm_left,
    (owed_perm asked owners answers owed).subperm_right, List.subperm_append_left]

/-- Nothing is gathered twice. -/
theorem gathered_subperm (hAsked : asked.Nodup) (hOwners : owners.Nodup) :
    (asked.flatMap (contribution answers owed)).Subperm
      (owners.flatMap owed ++ (bystanders asked answers owners).flatMap owed) := by
  rw [(gathered_perm hAsked hOwners).subperm_right, List.subperm_append_right]
  exact (List.filter_sublist.flatMap owed).subperm

end Owners

end ShardDB.Lib
