import Mathlib.Data.List.Perm.Basic
import Mathlib.Data.List.Nodup
import Mathlib.Logic.Equiv.Defs

/-! # Ledgers

Resources have identities. What is allocated belongs to one of several owners, or was retired and waits in a
list for its release; it never has two owners, it is never owned and retired, and it waits once. -/

namespace Lib

structure Ledger {ι : Type} (allocated : Nat → Prop) (own : ι → Nat → Prop) (retired : List Nat) : Prop where
  accounted : ∀ x, allocated x ↔ (∃ i, own i x) ∨ x ∈ retired
  single : ∀ {x i j}, own i x → own j x → i = j
  apart : ∀ x ∈ retired, ∀ i, ¬ own i x
  once : retired.Nodup

/-- What an operation of one owner does to the resources: those of `new` become its own, those of `pushed` are
    retired and those of `gone` are released at once. -/
structure Shift (new gone : Nat → Prop) (pushed : List Nat) (mine mine' : Nat → Prop) : Prop where
  mine_iff : ∀ x, mine' x ↔ new x ∨ mine x ∧ x ∉ pushed ∧ ¬ gone x
  retires : ∀ x ∈ pushed, mine x ∧ ¬ gone x
  releases : ∀ x, gone x → mine x
  once : pushed.Nodup

/-- What is allocated after an operation, when identities are handed out in order and only the resources of its
    owner are touched. -/
theorem Shift.allocated_iff {next next' : Nat} {gone mine mine' allocated allocated' : Nat → Prop} {pushed : List Nat}
    (h : Shift (fun x => next ≤ x ∧ x < next') gone pushed mine mine') (hmine : ∀ x, mine x → allocated x)
    (hmine' : ∀ x, mine' x → allocated' x) (hleft : ∀ x, mine x → (allocated' x ↔ ¬ gone x))
    (hout : ∀ x < next, ¬ mine x → (allocated' x ↔ allocated x)) (hnext : ∀ x, next ≤ x → ¬ allocated x)
    (hnext' : ∀ x, next' ≤ x → ¬ allocated' x) (x : Nat) :
    allocated' x ↔ (next ≤ x ∧ x < next') ∨ allocated x ∧ ¬ gone x := by
  by_cases hx : mine x
  · rw [hleft x hx]
    exact ⟨fun hg => Or.inr ⟨hmine x hx, hg⟩, fun h => h.elim (fun hn => absurd (hmine x hx) (hnext x hn.1)) (·.2)⟩
  · rcases Nat.lt_or_ge x next with hlt | hge
    · rw [hout x hlt hx]
      exact ⟨fun ha => Or.inr ⟨ha, fun hg => hx (h.releases x hg)⟩,
        fun h => h.elim (fun hn => absurd hlt (Nat.not_lt.mpr hn.1)) (·.1)⟩
    · constructor
      · exact fun ha => Or.inl ⟨hge, Nat.lt_of_not_le fun hle => hnext' x hle ha⟩
      · rintro (hn | ⟨ha, -⟩)
        · exact hmine' x ((h.mine_iff x).mpr (Or.inl hn))
        · exact absurd ha (hnext x hge)

namespace Ledger
variable {ι : Type} {allocated allocated' : Nat → Prop} {own own' : ι → Nat → Prop} {retired : List Nat}

theorem empty : Ledger (fun _ => False) (fun _ : ι => fun _ => False) [] :=
  ⟨by simp, fun h => h.elim, by simp, List.nodup_nil⟩

/-- Nothing is left when nothing is owned or retired. -/
theorem none_left (L : Ledger allocated own []) (h : ∀ i x, ¬ own i x) (x : Nat) : ¬ allocated x := by
  rw [L.accounted]
  rintro (⟨i, hi⟩ | hx)
  · exact h i x hi
  · exact List.not_mem_nil hx

/-- An operation of the owner `i`. -/
theorem step (L : Ledger allocated own retired) {i : ι} {new gone : Nat → Prop} {pushed : List Nat}
    (h : Shift new gone pushed (own i) (own' i)) (hothers : ∀ j, j ≠ i → own' j = own j) (hnew : ∀ x, new x → ¬ allocated x)
    (hall : ∀ x, allocated' x ↔ new x ∨ allocated x ∧ ¬ gone x) : Ledger allocated' own' (retired ++ pushed) := by
  have hmine : ∀ x, own i x → allocated x := fun x hx => (L.accounted x).mpr (Or.inl ⟨i, hx⟩)
  have hown : ∀ {j x}, own' j x → new x ∧ j = i ∨ own j x ∧ ¬ gone x ∧ (j = i → x ∉ pushed) := by
    intro j x hx
    by_cases hj : j = i
    · subst hj
      rcases (h.mine_iff x).mp hx with hx | ⟨hx, hp, hg⟩
      · exact Or.inl ⟨hx, rfl⟩
      · exact Or.inr ⟨hx, hg, fun _ => hp⟩
    · rw [hothers j hj] at hx
      exact Or.inr ⟨hx, fun hg => hj (L.single hx (h.releases x hg)), fun heq => absurd heq hj⟩
  refine ⟨fun x => ?_, fun {x j k} hj hk => ?_, fun x hx j hj => ?_, ?_⟩
  · rw [hall, L.accounted]
    constructor
    · rintro (hx | ⟨⟨j, hj⟩ | hx, hg⟩)
      · exact Or.inl ⟨i, (h.mine_iff x).mpr (Or.inl hx)⟩
      · by_cases hji : j = i
        · subst hji
          by_cases hp : x ∈ pushed
          · exact Or.inr (List.mem_append_right _ hp)
          · exact Or.inl ⟨j, (h.mine_iff x).mpr (Or.inr ⟨hj, hp, hg⟩)⟩
        · exact Or.inl ⟨j, by rw [hothers j hji]; exact hj⟩
      · exact Or.inr (List.mem_append_left _ hx)
    · rintro (⟨j, hj⟩ | hx)
      · rcases hown hj with ⟨hx, -⟩ | ⟨hx, hg, -⟩
        · exact Or.inl hx
        · exact Or.inr ⟨Or.inl ⟨j, hx⟩, hg⟩
      · rcases List.mem_append.mp hx with hx | hx
        · exact Or.inr ⟨Or.inr hx, fun hg => L.apart x hx i (h.releases x hg)⟩
        · exact Or.inr ⟨Or.inl ⟨i, (h.retires x hx).1⟩, (h.retires x hx).2⟩
  · rcases hown hj with ⟨hx, rfl⟩ | ⟨hx, -⟩ <;> rcases hown hk with ⟨hx', rfl⟩ | ⟨hx', -⟩
    · rfl
    · exact absurd ((L.accounted x).mpr (Or.inl ⟨k, hx'⟩)) (hnew x hx)
    · exact absurd ((L.accounted x).mpr (Or.inl ⟨j, hx⟩)) (hnew x hx')
    · exact L.single hx hx'
  · rcases hown hj with ⟨hn, -⟩ | ⟨hxj, -, hp⟩
    · rcases List.mem_append.mp hx with hx | hx
      · exact hnew x hn ((L.accounted x).mpr (Or.inr hx))
      · exact hnew x hn (hmine x (h.retires x hx).1)
    · rcases List.mem_append.mp hx with hx | hx
      · exact L.apart x hx j hxj
      · exact hp (L.single hxj (h.retires x hx).1) hx
  · refine List.nodup_append.mpr ⟨L.once, h.once, fun x hx y hy => ?_⟩
    rintro rfl
    exact L.apart x hx i (h.retires x hy).1

/-- The owners under other names. -/
theorem reindex (L : Ledger allocated own retired) (σ : ι ≃ ι) : Ledger allocated (fun i => own (σ i)) retired := by
  refine ⟨fun x => ?_, fun hi hj => σ.injective (L.single hi hj), fun x hx i => L.apart x hx (σ i), L.once⟩
  rw [L.accounted, σ.surjective.exists]

/-- Some of what was retired is released. -/
theorem release (L : Ledger allocated own retired) {released rest : List Nat} (hperm : retired.Perm (released ++ rest))
    (hall : ∀ x, allocated' x ↔ allocated x ∧ x ∉ released) : Ledger allocated' own rest := by
  have hmem : ∀ x, x ∈ retired ↔ x ∈ released ∨ x ∈ rest := fun x => by rw [hperm.mem_iff, List.mem_append]
  obtain ⟨-, hrest, hdis⟩ := List.nodup_append.mp (hperm.nodup_iff.mp L.once)
  refine ⟨fun x => ?_, L.single, fun x hx => L.apart x ((hmem x).mpr (Or.inr hx)), hrest⟩
  rw [hall, L.accounted, hmem]
  constructor
  · rintro ⟨hx | hx | hx, hr⟩
    · exact Or.inl hx
    · exact absurd hx hr
    · exact Or.inr hx
  · rintro (⟨i, hi⟩ | hx)
    · exact ⟨Or.inl ⟨i, hi⟩, fun hr => L.apart x ((hmem x).mpr (Or.inl hr)) i hi⟩
    · exact ⟨Or.inr (Or.inr hx), fun hr => hdis x hr x hx rfl⟩

end Ledger
end Lib
