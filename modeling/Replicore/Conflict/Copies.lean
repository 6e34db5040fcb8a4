import Replicore.Conflict.Winner

/-!
# Copies where nobody writes at copy names

As long as the only rows at conflict-copy names are copies, a name that is taken is taken by a copy
of the same vector, and the copy chain never grows: the plan exists, its copies stand at free names,
and the name of every loser with content is taken in the end (`planCopies_of_copies`).
-/

namespace Replicore

variable [Blake3]

/-- Every row at a conflict-copy name has the vector of a copy. -/
def OnlyCopies (lookup : Path → Option Version) : Prop :=
  ∀ cp e, IsCopyName cp → lookup cp = some e → (copyVv cp).compare e.vv = .equal

theorem placeCopy_of_copies {lookup : Path → Option Version} (h : OnlyCopies lookup) (depth : ℕ)
    (rows : List PlannedRow) {cp : Path} (hcp : IsCopyName cp) (content : Version) :
    placeCopy lookup (depth + 1) rows cp content =
      some (if (rows.any fun r => r.path = cp) ∨ (lookup cp).isSome then rows
        else rows ++ [copyRow cp content]) := by
  unfold placeCopy
  by_cases hany : (rows.any fun r => r.path = cp) = true
  · simp [hany]
  · cases hl : lookup cp with
    | none => simp [hany]
    | some e => simp [hany, h cp e hcp hl]

/-- The name of the copy of a version. -/
def copyNameOf (path : Path) (hash : Hash) (v : Version) : Path :=
  copyPathFor path hash (Meta.namingHash v.metadata)

theorem planCopies_cons {lookup : Path → Option Version} {path : Path} {winner loser : Version}
    {rows rows' : List PlannedRow} {hash : Hash} (hcontent : loser.contentHash = some hash)
    (hkey : loser.key ≠ winner.key)
    (hplace : placeCopy lookup maxCopyDepth rows (copyNameOf path hash loser) loser = some rows')
    (losers : List Version) : planCopies lookup path winner rows (loser :: losers) =
      planCopies lookup path winner rows' losers := by
  rw [copyNameOf] at hplace
  simp only [planCopies, hcontent, hkey, if_false, hplace]

theorem planCopies_of_copies {lookup : Path → Option Version} (h : OnlyCopies lookup) (path : Path)
    (winner : Version) (rows : List PlannedRow) (losers : List Version) :
    ∃ added, planCopies lookup path winner rows losers = some (rows ++ added) ∧
      (∀ r ∈ added, lookup r.path = none ∧ ∃ l ∈ losers, l.key ≠ winner.key ∧
        ∃ hash, l.contentHash = some hash ∧ r = copyRow (copyNameOf path hash l) l) ∧
      ∀ l ∈ losers, ∀ hash, l.contentHash = some hash → l.key ≠ winner.key →
        (∃ r ∈ rows ++ added, r.path = copyNameOf path hash l) ∨
          (lookup (copyNameOf path hash l)).isSome := by
  induction losers generalizing rows with
  | nil => exact ⟨[], by simp [planCopies], by simp, by simp⟩
  | cons loser losers ih =>
    -- a loser that is left out, and one that is placed
    have hskip : planCopies lookup path winner rows (loser :: losers) =
          planCopies lookup path winner rows losers →
        (∀ hash, loser.contentHash = some hash → loser.key ≠ winner.key →
          (∃ r ∈ rows, r.path = copyNameOf path hash loser) ∨
            (lookup (copyNameOf path hash loser)).isSome) →
        ∃ added, planCopies lookup path winner rows (loser :: losers) = some (rows ++ added) ∧
          (∀ r ∈ added, lookup r.path = none ∧ ∃ l ∈ loser :: losers, l.key ≠ winner.key ∧
            ∃ hash, l.contentHash = some hash ∧ r = copyRow (copyNameOf path hash l) l) ∧
          ∀ l ∈ loser :: losers, ∀ hash, l.contentHash = some hash → l.key ≠ winner.key →
            (∃ r ∈ rows ++ added, r.path = copyNameOf path hash l) ∨
              (lookup (copyNameOf path hash l)).isSome := by
      intro heq htaken
      obtain ⟨added, hplan, hadded, hall⟩ := ih rows
      refine ⟨added, heq.trans hplan, fun r hr => ?_, fun l hl hash hhash hkey => ?_⟩
      · obtain ⟨hfree, l, hl, hrest⟩ := hadded r hr
        exact ⟨hfree, l, List.mem_cons_of_mem _ hl, hrest⟩
      · rcases List.mem_cons.1 hl with rfl | hl
        · refine (htaken hash hhash hkey).imp_left ?_
          rintro ⟨r, hr, hrp⟩
          exact ⟨r, List.mem_append_left _ hr, hrp⟩
        · exact hall l hl hash hhash hkey
    cases hcontent : loser.contentHash with
    | none => exact hskip (by simp [planCopies, hcontent]) (by simp [hcontent])
    | some hash =>
      by_cases hkey : loser.key = winner.key
      · exact hskip (by simp [planCopies, hcontent, hkey]) fun _ _ hne => absurd hkey hne
      · have hcp : IsCopyName (copyNameOf path hash loser) := ⟨_, _, _, rfl⟩
        have hplace := placeCopy_of_copies h 3 rows hcp loser
        by_cases htaken : (rows.any fun r => r.path = copyNameOf path hash loser) = true ∨
            (lookup (copyNameOf path hash loser)).isSome
        · rw [if_pos htaken] at hplace
          refine hskip (planCopies_cons hcontent hkey hplace losers) fun hash' hhash' _ => ?_
          rw [hcontent, Option.some.injEq] at hhash'
          subst hhash'
          refine htaken.imp_left fun hany => ?_
          simpa using hany
        · rw [if_neg htaken] at hplace
          obtain ⟨added, hplan, hadded, hall⟩ :=
            ih (rows ++ [copyRow (copyNameOf path hash loser) loser])
          refine ⟨copyRow (copyNameOf path hash loser) loser :: added, ?_, fun r hr => ?_,
            fun l hl hash' hhash' hne => ?_⟩
          · rw [planCopies_cons hcontent hkey hplace losers]
            simpa using hplan
          · rcases List.mem_cons.1 hr with rfl | hr
            · refine ⟨?_, loser, List.mem_cons_self, hkey, hash, hcontent, rfl⟩
              exact Option.not_isSome_iff_eq_none.1 (not_or.1 htaken).2
            · obtain ⟨hfree, l, hl, hrest⟩ := hadded r hr
              exact ⟨hfree, l, List.mem_cons_of_mem _ hl, hrest⟩
          · rcases List.mem_cons.1 hl with rfl | hl
            · rw [hcontent, Option.some.injEq] at hhash'
              subst hhash'
              exact .inl ⟨copyRow (copyNameOf path hash l) l, by simp, rfl⟩
            · simpa using hall l hl hash' hhash' hne

end Replicore
