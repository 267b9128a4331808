import Mathlib.Data.List.Nodup
import Mathlib.Data.List.Perm.Subperm
import Mathlib.Logic.Relation
import CliMetadata.Proofs.Table.Steps

/-!
# From row to row

The rows that a token can find are those of the tables and those of amendments
(`Image.mem_rowTokens`), so there is a bound on them.  A walk from row to row
that does not come back keeps a `Trail` of rows that are all different, and is
therefore shorter than this bound (`Trail.length_lt`).
-/

namespace CliMetadata

/-! ### Rows that can be found -/

/-- The tokens by which rows of a table can be found. -/
def rowTokens {ρ : Type} (kind : TableKind) (rows : Array ρ)
    (changes : List (Token × Option ρ)) :
    List Token :=
  (List.range rows.size).map (fun i => Token.ofParts kind
    (UInt32.ofNat (i + 1)))
    ++ changes.map Prod.fst

section
variable {ρ : Type} {kind : TableKind} {rows : Array ρ}
  {changes : List (Token × Option ρ)}

@[simp]
theorem length_rowTokens :
    (rowTokens kind rows changes).length = rows.size + changes.length := by
  simp [rowTokens]

theorem mem_rowTokens {token : Token} {row : ρ}
    (found : amended changes token (rowAt? kind rows token) = some row) :
    token ∈ rowTokens kind rows changes := by
  rw [amended] at found
  cases change : changes.lookup token with
  | some answer =>
    -- The row was changed, and the change is listed by its token.
    obtain ⟨before, after, rfl, -⟩ := List.lookup_eq_some_iff.mp change
    simp [rowTokens]
  | none =>
    rw [change, Option.getD_none] at found
    -- The row was built, and tokens are counted as rows are.
    refine List.mem_append_left _
      (List.mem_map.mpr ⟨token.row.toNat - 1, ?_, ?_⟩)
    · rw [rowAt?] at found
      split at found
      · exact List.mem_range.mpr (Array.getElem?_eq_some_iff.mp found).1
      · cases found
    · exact ofParts_of_rowAt? found

end

/-! ### Walks -/

/-- The items that a walk has left behind, the latest first, and the one where
it is: all different, all among the given ones, and each led here. -/
structure Trail {α : Type} (leadsTo : α → α → Prop) (items : List α)
    (visited : List α) (current : α) : Prop where
  distinct : (current :: visited).Nodup
  among : current :: visited ⊆ items
  leads : ∀ a ∈ visited, Relation.TransGen leadsTo a current

namespace Trail

variable {α : Type} {leadsTo : α → α → Prop} {items visited : List α}
  {current next : α}

/-- A walk that begins. -/
theorem start (h : current ∈ items) : Trail leadsTo items [] current where
  distinct := List.nodup_singleton current
  among := List.cons_subset.mpr ⟨h, List.nil_subset items⟩
  leads := nofun

/-- A walk that goes on to where it does not come back from. -/
theorem step (h : Trail leadsTo items visited current)
    (leads : leadsTo current next) (mem : next ∈ items)
    (away : ¬ Relation.ReflTransGen leadsTo next current) :
    Trail leadsTo items (current :: visited) next where
  distinct := by
    refine List.nodup_cons.mpr ⟨fun again => away ?_, h.distinct⟩
    rcases List.mem_cons.mp again with rfl | again
    · exact .refl
    · exact (h.leads next again).to_reflTransGen
  among := List.cons_subset.mpr ⟨mem, h.among⟩
  leads a ha := by
    rcases List.mem_cons.mp ha with rfl | ha
    · exact .single leads
    · exact (h.leads a ha).tail leads

/-- There are more items than a walk has left behind. -/
theorem length_lt (h : Trail leadsTo items visited current) :
    visited.length < items.length :=
  (List.Nodup.subperm h.distinct h.among).length_le

end Trail

end CliMetadata
