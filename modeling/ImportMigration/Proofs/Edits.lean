import ImportMigration.Proofs.Clause
import ImportMigration.Proofs.Reach

/-!
What a pass edits: the specifiers of the packages in its table, each in an import and with a quote
behind it, and of the other characters only quotes that close a specifier it renames.
-/

namespace ImportMigration.Import

open Text

/-- A specifier of the row's old package, and the same one of its new package. -/
def Rename.Renames (row : Rename) (x y : Text) : Prop :=
  x = row.old ∧ y = row.new ∨
    row.subpaths = true ∧ ∃ sub, sub ≠ [] ∧ '\n' ∉ sub ∧
      x = row.old ++ '/' :: sub ∧ y = row.new ++ '/' :: sub

theorem exists_row_of_renames {renames : List Rename} {r : Rule} (hr : r ∈ rulesOf renames)
    {tail : Text} (ht : r.form.isTail tail = true) :
    ∃ row ∈ renames, row.Renames (r.old ++ tail) (r.new ++ tail) := by
  obtain ⟨row, hrow, hold, hnew, hsub⟩ := mem_rulesOf.mp hr
  refine ⟨row, hrow, ?_⟩
  rw [hold, hnew]
  cases hf : r.form with
  | exact =>
    rw [hf, Form.isTail_exact] at ht
    exact .inl (by simp [ht])
  | subpath =>
    rw [hf, Form.isTail_subpath] at ht
    obtain ⟨sub, rfl, hne, hs⟩ := ht
    refine .inr ⟨hsub hf, sub, hne, ?_, rfl, rfl⟩
    intro hn
    exact absurd (hs _ hn) (by decide)

/-- The legacy rules cut the text where it was cut before. A segment of it is kept, or is the
specifier of a legacy package, renamed by the package's row, in front of its closing quote and
behind the opening of an import; and a quote is kept unless it closes such a specifier. -/
theorem rewrite_edits_specifiers (t : Text) :
    (segments (rewrite defaultRules t)).length = (segments t).length ∧
    (∀ (i : Nat) x y, (segments t)[i]? = some x → (segments (rewrite defaultRules t))[i]? = some y →
      y = x ∨ (∃ row ∈ Rename.legacy, row.Renames x y) ∧ i < (quotes t).length ∧
        ∃ j s, i = j + 1 ∧ (segments t)[j]? = some s ∧ EndsWithImport s) ∧
    (quotes (rewrite defaultRules t)).length = (quotes t).length ∧
    ∀ i : Nat, (quotes (rewrite defaultRules t))[i]? ≠ (quotes t)[i]? →
      (segments (rewrite defaultRules t))[i]? ≠ (segments t)[i]? := by
  have hf : Fresh defaultRules := Rename.wellFormed_legacy.fresh
  have he : Exclusive defaultRules := exclusive_rulesOf Rename.separate_legacy
  have hpass := pass_rewrite hf t
  have hlen := hpass.length
  rw [length_segments_eq, length_segments_eq, Nat.add_right_cancel_iff] at hlen
  refine ⟨hpass.length, ?_, hlen, ?_⟩
  · intro i x y hx hy
    by_cases hxy : y = x
    · exact .inl hxy
    right
    have hchanged : (segments (rewrite defaultRules t))[i]? ≠ (segments t)[i]? := by
      simpa [hx, hy] using hxy
    obtain ⟨r, hr, tail, ht, hxr, hyr⟩ := (hpass.step i).resolve_left hchanged
    obtain rfl := Option.some.inj (hx.symm.trans hxr)
    obtain rfl := Option.some.inj (hy.symm.trans hyr)
    refine ⟨exists_row_of_renames hr ht, ?_⟩
    -- What was renamed is not the first segment, so the one before it was open.
    cases i with
    | zero => exact absurd hpass.head hchanged
    | succ j =>
      obtain ⟨hj, s, hs, ho⟩ := (hpass.opened j).resolve_left hchanged
      rw [length_segments_eq] at hj
      exact ⟨by omega, j, s, rfl, hs, endsWithImport_of_opens ho⟩
  · intro i hq hi
    rcases getElem?_quotes_rewrite hf he t i with hs | ⟨r, hr, hreach⟩
    · exact hq hs
    · exact Rule.not_renames_self (hf.gone r hr r hr) hi
        ((renames_rewrite_iff hf he hr t i).mpr hreach)

end ImportMigration.Import
