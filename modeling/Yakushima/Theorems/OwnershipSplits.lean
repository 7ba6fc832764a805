import Yakushima.Theorems.OwnershipDrafts

/-! # Splits and `put` obey the discipline -/

namespace Yakushima
namespace Protocol
open M Lib

variable {α : Type} {own : NodeId → Option Node} {K : Set NodeId} {H H' R : Multiset (NodeId × Bool)}
  {Q : α → Set NodeId → Prop} {n p child : NodeId} {b : Bool} {fuel : Nat} {ti : TreeId}

/-! ### Locks in any order -/

theorem keeps_unlock (hn : n ∈ K) (hH : H = (n, b) ::ₘ R) : Keeps own K H (versionUnlock fuel n) R Any :=
  hH ▸ keeps_versionUnlock hn

theorem third_first {x y z : NodeId × Bool} : x ::ₘ y ::ₘ z ::ₘ R = z ::ₘ x ::ₘ y ::ₘ R := by
  rw [Multiset.cons_swap y, Multiset.cons_swap x]

/-- The word of a node that the thread locked. -/
theorem keeps_getBodyHeld (hn : n ∈ K) (hb : (n, b) ∈ H) : Keeps own K H (getBody n) H fun v _ => v.locked = true ∧
    v.dirty = b := by
  refine Keeps.perform fun v e => ?_
  by_cases hv : v.locked = true ∧ v.dirty = b
  · exact Or.inr ⟨_, _, Or.inl ⟨hn, rfl⟩, fun _ h => Or.inl h, id, hv⟩
  · exact Or.inl (Or.inr ⟨b, hb, hv⟩)

/-! ### `interior_split` -/

theorem keeps_interiorSplitMove {f : NodeId × KeySlice × Nat → M α} (hn : n ∈ K)
    (hf : ∀ ni r K', K ⊆ K' → ni ∈ K' → Keeps nothing K' ((ni, true) ::ₘ (n, true) ::ₘ R) (f (ni, r)) H' Q) :
    Keeps nothing K ((n, b) ::ₘ R) (interiorSplitMove fuel n >>= f) H' Q := by
  rw [interiorSplitMove]
  simp only [Prog.bind_assoc]
  refine Keeps.bind (keeps_setVersionSplitting hn) fun _ K₁ hK₁ _ => ?_
  replace hn := hK₁ hn
  intro e
  refine newNode_followed fun ni _ _ => ?_
  have hd : Drafted .interior .init 0 .empty (fun m => m ∈ K₁) (.fresh .interior) := drafted_fresh
  refine draft_update hd rfl rfl fun nd hd => ?_
  refine (keeps_getBodyHeld hn (Multiset.mem_cons_self _ _)).followed fun v K₂ e₂ hK₂ he₂ hv => ?_
  refine draft_storeWord (hd.mono fun m hm => hK₂ hm) rfl hv.1 fun K₃ hK₃ hni => ?_
  rw [hv.2]
  have hK : K₁ ⊆ K₃ := hK₂.trans hK₃
  refine Keeps.after (Q := Q) ?_ hK he₂
  have hd₁ : (n, true) ∈ (ni, true) ::ₘ (n, true) ::ₘ R := Multiset.mem_cons_of_mem (Multiset.mem_cons_self _ _)
  have hd₂ : (ni, true) ∈ (ni, true) ::ₘ (n, true) ::ₘ R := Multiset.mem_cons_self _ _
  replace hn := hK hn
  refine Keeps.bind (keeps_moveKeyToBaseRange hn hni hd₁ hd₂) fun _ K₄ hK₄ _ => ?_
  refine Keeps.bind (Keeps.store (hK₄ hn) (fun _ => hd₁) knows_none) fun _ K₅ hK₅ _ => ?_
  refine Keeps.bind (Keeps.store (hK₅ (hK₄ hni)) (fun _ => hd₂) knows_none) fun _ K₆ hK₆ _ => ?_
  have hK' : K₃ ⊆ K₆ := hK₄.trans (hK₅.trans hK₆)
  refine Keeps.bind (keeps_moveChildrenToInteriorRange (hK' hn) (hK' hni) hd₁ hd₂) fun _ K₇ hK₇ _ => ?_
  replace hK' := hK'.trans hK₇
  refine Keeps.bind (Keeps.load (hK' hn)) fun pivotKey K₈ hK₈ _ => ?_
  refine Keeps.bind (Keeps.load (hK₈ (hK' hn))) fun pivotLength K₉ hK₉ _ => ?_
  replace hK' := hK'.trans (hK₈.trans hK₉)
  refine Keeps.bind (keeps_setKey (hK' hn) hd₁) fun _ K₁₀ hK₁₀ _ => ?_
  exact hf ni _ K₁₀ (hK₁.trans (hK.trans (hK'.trans hK₁₀))) (hK₁₀ (hK' hni))

theorem keeps_interiorSplitInsert {ni : NodeId} {slice pivotKey : KeySlice} {length pivotLength : Nat} (hn : n ∈ K)
    (hni : ni ∈ K) (hc : child ∈ K) :
    Keeps own K ((ni, true) ::ₘ (n, true) ::ₘ R) (interiorSplitInsert fuel n ni child slice length pivotKey pivotLength)
      ((ni, true) ::ₘ (n, true) ::ₘ R) Any := by
  rw [interiorSplitInsert]
  refine Keeps.bind (Keeps.when fun _ => Keeps.logError) fun _ K₁ hK₁ _ => ?_
  split
  · refine Keeps.bind (Keeps.store (hK₁ hc) (fun _ => trivial) (knows_some (hK₁ hn))) fun _ K₂ hK₂ _ => ?_
    rw [Multiset.cons_swap]
    exact keeps_interiorInsert (hK₂ (hK₁ hn)) (hK₂ (hK₁ hc))
  · refine Keeps.bind (Keeps.store (hK₁ hc) (fun _ => trivial) (knows_some (hK₁ hni))) fun _ K₂ hK₂ _ => ?_
    exact keeps_interiorInsert (hK₂ (hK₁ hni)) (hK₂ (hK₁ hc))

theorem keeps_splitRoot {left right : NodeId} (hl : left ∈ K) (hr : right ∈ K) (hp : p ∈ K) :
    Keeps own K ((p, true) ::ₘ (right, true) ::ₘ (left, true) ::ₘ R) (splitRoot fuel ti left right p) R Any := by
  rw [splitRoot]
  refine Keeps.bind (keeps_unlock hl third_first) fun _ K₁ hK₁ _ => ?_
  refine Keeps.bind (keeps_unlock (hK₁ hr) (Multiset.cons_swap _ _ _)) fun _ K₂ hK₂ _ => ?_
  have hp₂ := hK₂ (hK₁ hp)
  refine Keeps.bind (Keeps.storeRoot (knows_some hp₂)) fun _ K₃ hK₃ _ => ?_
  exact keeps_versionUnlock (hK₃ hp₂)

/-- A function that inserts into a full interior, and gives its lock back. -/
def SplitsInterior (split : NodeId → NodeId → KeySlice → Nat → M Unit) : Prop :=
  ∀ {K : Set NodeId} {R : Multiset (NodeId × Bool)} {n child : NodeId}
  {b : Bool} {slice : KeySlice} {length : Nat}, n ∈ K → child ∈ K →
    Keeps nothing K ((n, b) ::ₘ R) (split n child slice length) R Any

theorem keeps_interiorSplitParent {splitParent : NodeId → NodeId → KeySlice → Nat → M Unit} {ni : NodeId}
    {pivotKey : KeySlice} {pivotLength : Nat} (hs : SplitsInterior splitParent) (hn : n ∈ K) (hni : ni ∈ K) :
    Keeps nothing K ((ni, true) ::ₘ (n, true) ::ₘ R)
      (interiorSplitParent fuel ti splitParent n ni pivotKey pivotLength) R Any := by
  rw [interiorSplitParent]
  refine keeps_lockParent hn (fun K₁ hK₁ => ?_) fun p K₁ hK₁ hp => ?_
  · replace hn := hK₁ hn
    replace hni := hK₁ hni
    refine Keeps.bind Keeps.loadRoot fun root K₂ hK₂ _ => ?_
    refine Keeps.bind (Keeps.when fun _ => Keeps.logError) fun _ K₃ hK₃ _ => ?_
    have hK : K₁ ⊆ K₃ := hK₂.trans hK₃
    refine keeps_createInteriorParent (hK hn) (hK hni) fun p K₄ hK₄ hp => ?_
    exact keeps_splitRoot (hK₄ (hK hn)) (hK₄ (hK hni)) hp
  · replace hn := hK₁ hn
    replace hni := hK₁ hni
    refine Keeps.bind (keeps_isStale hn hp) fun stale K₂ hK₂ _ => ?_
    refine Keeps.bind (Keeps.when fun _ => Keeps.logError) fun _ K₃ hK₃ _ => ?_
    refine Keeps.bind (keeps_getVersion (hK₃ (hK₂ hp))) fun parentIsBorder K₄ hK₄ _ => ?_
    have hK : K₁ ⊆ K₄ := hK₂.trans (hK₃.trans hK₄)
    replace hn := hK hn
    replace hni := hK hni
    replace hp := hK hp
    split
    · refine Keeps.bind (keeps_setVersionInsertingDeleting hp) fun _ K₅ hK₅ _ => ?_
      replace hn := hK₅ hn
      replace hni := hK₅ hni
      refine keeps_createInteriorParent hn hni fun newP K₆ hK₆ hnewP => ?_
      have hp₆ := hK₆ (hK₅ hp)
      replace hn := hK₆ hn
      have hH : (newP, true) ::ₘ (p, true) ::ₘ (ni, true) ::ₘ (n, true) ::ₘ R = (n, true) ::ₘ (newP, true) ::ₘ
        (p, true) ::ₘ (ni, true) ::ₘ R := by
        rw [third_first (x := (p, true)), Multiset.cons_swap (newP, true)]
      refine Keeps.bind (keeps_unlock hn hH) fun _ K₇ hK₇ _ => ?_
      refine Keeps.bind (keeps_unlock (hK₇ (hK₆ hni)) third_first) fun _ K₈ hK₈ _ => ?_
      have hK' : K₆ ⊆ K₈ := hK₇.trans hK₈
      have hb : (p, true) ∈ (newP, true) ::ₘ (p, true) ::ₘ R := Multiset.mem_cons_of_mem (Multiset.mem_cons_self _ _)
      refine Keeps.bind (keeps_getLv (hK' hp₆)) fun lv K₉ hK₉ _ => ?_
      replace hK' := hK'.trans hK₉
      refine Keeps.bind (keeps_setNextLayer (hK' hp₆) hb (hK' hnewP)) fun _ K₁₀ hK₁₀ _ => ?_
      replace hK' := hK'.trans hK₁₀
      refine Keeps.bind (Keeps.store (hK' hnewP) (fun _ => trivial) (knows_some (hK' hp₆))) fun _ K₁₁ hK₁₁ _ => ?_
      replace hK' := hK'.trans hK₁₁
      refine Keeps.bind (keeps_versionUnlock (hK' hnewP)) fun _ K₁₂ hK₁₂ _ => ?_
      exact keeps_versionUnlock (hK₁₂ (hK' hp₆))
    · refine Keeps.bind (keeps_unlock hn third_first) fun _ K₅ hK₅ _ => ?_
      refine Keeps.bind (Keeps.store (hK₅ hni) (fun _ => trivial) (knows_some (hK₅ hp))) fun _ K₆ hK₆ _ => ?_
      have hK' : K₄ ⊆ K₆ := hK₅.trans hK₆
      refine Keeps.bind (keeps_unlock (hK' hni) (Multiset.cons_swap _ _ _)) fun _ K₇ hK₇ _ => ?_
      replace hK' := hK'.trans hK₇
      refine Keeps.bind (Keeps.load (hK' hp)) fun nKeys K₈ hK₈ _ => ?_
      replace hK' := hK'.trans hK₈
      split
      · exact hs (hK' hp) (hK' hni)
      · refine Keeps.bind (keeps_interiorInsert (hK' hp) (hK' hni)) fun _ K₉ hK₉ _ => ?_
        exact keeps_versionUnlock (hK₉ (hK' hp))

theorem splitsInterior_interiorSplit (k : Nat) : SplitsInterior (interiorSplit fuel ti k) := by
  induction k with
  | zero => exact fun _ _ => Keeps.halt
  | succ k ih =>
    intro K R n child b slice length hn hc
    rw [interiorSplit]
    refine keeps_interiorSplitMove hn fun ni r K₁ hK₁ hni => ?_
    refine Keeps.bind (keeps_interiorSplitInsert (hK₁ hn) hni (hK₁ hc)) fun _ K₂ hK₂ _ => ?_
    exact keeps_interiorSplitParent ih (hK₂ (hK₁ hn)) (hK₂ hni)

/-! ### `border_split` -/

theorem keeps_moveEntry {nb indexCtr : NodeId} (hn : n ∈ K) (hnb : nb ∈ K) (hd : (n, true) ∈ H) (hnd : (nb, true) ∈ H) :
    Keeps own K H (moveEntry n nb indexCtr) H Any := by
  rw [moveEntry]
  refine Keeps.bind (Keeps.load hn) fun body K₁ hK₁ _ => ?_
  replace hn := hK₁ hn
  replace hnb := hK₁ hnb
  dsimp only
  refine Keeps.bind (Keeps.load hn) fun slice K₂ hK₂ _ => ?_
  refine Keeps.bind (Keeps.store (hK₂ hnb) (fun _ => hnd) knows_none) fun _ K₃ hK₃ _ => ?_
  have hK : K₁ ⊆ K₃ := hK₂.trans hK₃
  refine Keeps.bind (Keeps.load (hK hn)) fun length K₄ hK₄ _ => ?_
  refine Keeps.bind (Keeps.store (hK₄ (hK hnb)) (fun _ => hnd) knows_none) fun _ K₅ hK₅ _ => ?_
  replace hK := hK.trans (hK₄.trans hK₅)
  refine Keeps.bind (Keeps.load (hK hn)) fun lv K₆ hK₆ hlv => ?_
  replace hK := hK.trans hK₆
  refine Keeps.bind (Keeps.store (hK hnb) (fun _ => ⟨true, hnd⟩) hlv) fun _ K₇ hK₇ _ => ?_
  replace hK := hK.trans hK₇
  refine Keeps.bind (?_ : Keeps own K₇ H _ H Any) fun _ K₈ hK₈ _ => ?_
  · cases hnl : lv.getNextLayer with
    | some nl => exact Keeps.store (hK₇ (hlv nl hnl)) (fun _ => trivial) (knows_some (hK hnb))
    | none => exact Keeps.ret trivial
  replace hK := hK.trans hK₈
  refine Keeps.bind (keeps_initBorderAt (hK hn) hd) fun _ K₉ hK₉ _ => ?_
  refine Keeps.bind (keeps_deleteRank (hK₉ (hK hn)) hd) fun _ K₁₀ hK₁₀ _ => ?_
  exact keeps_decKeyNum (hK₁₀ (hK₉ (hK hn))) hd

theorem keeps_borderSplitMove {f : NodeId → M α} (hn : n ∈ K)
    (hf : ∀ nb K', K ⊆ K' → nb ∈ K' → Keeps nothing K' ((nb, true) ::ₘ (n, true) ::ₘ R) (f nb) H' Q) :
    Keeps nothing K ((n, b) ::ₘ R) (borderSplitMove fuel n >>= f) H' Q := by
  rw [borderSplitMove]
  simp only [initBorder, Prog.bind_assoc]
  refine Keeps.bind (keeps_setVersionSplitting hn) fun _ K₁ hK₁ _ => ?_
  replace hn := hK₁ hn
  intro e
  refine newNode_followed fun nb _ _ => ?_
  have hd : Drafted .border .init 0 .empty (fun m => m ∈ K₁) (.fresh .border) := drafted_fresh
  refine draft_update hd rfl rfl fun nd hd => ?_
  refine draft_update hd rfl rfl fun nd hd => ?_
  refine (Keeps.load (f := .next) hn).followed fun next K₂ e₂ hK₂ he₂ hnext => ?_
  replace hd := hd.mono fun m hm => hK₂ hm
  refine draft_store trivial hd hnext fun nd hd => ?_
  refine draft_store trivial hd (knows_some (hK₂ hn)) fun nd hd => ?_
  refine (keeps_getBodyHeld (hK₂ hn) (Multiset.mem_cons_self _ _)).followed fun v K₃ e₃ hK₃ he₃ hv => ?_
  refine draft_storeWord (hd.mono fun m hm => hK₃ hm) rfl hv.1 fun K₄ hK₄ hnb => ?_
  rw [hv.2]
  have hK : K₁ ⊆ K₄ := hK₂.trans (hK₃.trans hK₄)
  refine Keeps.after (Q := Q) ?_ hK (he₃ ∘ he₂)
  replace hn := hK hn
  replace hnext : Knows next K₄ := Knows.mono hnext (hK₃.trans hK₄)
  have hd₁ : (n, true) ∈ (nb, true) ::ₘ (n, true) ::ₘ R := Multiset.mem_cons_of_mem (Multiset.mem_cons_self _ _)
  have hd₂ : (nb, true) ∈ (nb, true) ::ₘ (n, true) ::ₘ R := Multiset.mem_cons_self _ _
  refine Keeps.bind (Keeps.store hn (fun _ => ⟨true, hd₁⟩) (knows_some hnb)) fun _ K₅ hK₅ _ => ?_
  refine Keeps.bind (?_ : Keeps nothing K₅ _ _ ((nb, true) ::ₘ (n, true) ::ₘ R) Any) fun _ K₆ hK₆ _ => ?_
  · cases next with
    | some nx => exact Keeps.store (hK₅ (hnext nx rfl)) (fun _ => trivial) (knows_some (hK₅ hnb))
    | none => exact Keeps.ret trivial
  have hK' : K₄ ⊆ K₆ := hK₅.trans hK₆
  refine Keeps.bind (keeps_forEach fun i K' hK'' => keeps_moveEntry (hK'' (hK' hn)) (hK'' (hK' hnb)) hd₁ hd₂)
    fun _ K₇ hK₇ _ => ?_
  replace hK' := hK'.trans hK₇
  refine Keeps.bind (Keeps.store (hK' hnb) (fun _ => ⟨true, hd₂⟩) knows_none) fun _ K₈ hK₈ _ => ?_
  exact hf nb K₈ (hK₁.trans (hK.trans (hK'.trans hK₈))) (hK₈ (hK' hnb))

theorem keeps_borderSplitInsert {nb : NodeId} {key : Key} {v : ValuePtr} {rank : Nat} (hn : n ∈ K) (hnb : nb ∈ K)
    (hd : (n, true) ∈ H) (hnd : (nb, true) ∈ H) : Keeps nothing K H (borderSplitInsert fuel n nb key v rank) H Any := by
  rw [borderSplitInsert]
  refine Keeps.bind (Keeps.load hnb) fun front K₁ hK₁ _ => ?_
  refine Keeps.bind (Keeps.load (hK₁ hnb)) fun frontLength K₂ hK₂ _ => ?_
  replace hn := hK₂ (hK₁ hn)
  replace hnb := hK₂ (hK₁ hnb)
  split
  · exact Keeps.bind (keeps_getEmptySlot hn) fun _ _ hK _ => keeps_insertLvAt (hK hn) hd
  · exact Keeps.bind (keeps_getEmptySlot hnb) fun _ _ hK _ => keeps_insertLvAt (hK hnb) hnd

theorem keeps_borderSplitParent {nb : NodeId} (hn : n ∈ K) (hnb : nb ∈ K) :
    Keeps nothing K ((nb, true) ::ₘ (n, true) ::ₘ R) (borderSplitParent fuel ti n nb) R Any := by
  rw [borderSplitParent]
  refine keeps_lockParent hn (fun K₁ hK₁ => ?_) fun p K₁ hK₁ hp => ?_
  · replace hn := hK₁ hn
    replace hnb := hK₁ hnb
    refine Keeps.bind Keeps.loadRoot fun root K₂ hK₂ _ => ?_
    refine Keeps.bind (Keeps.when fun _ => Keeps.logError) fun _ K₃ hK₃ _ => ?_
    have hK : K₁ ⊆ K₃ := hK₂.trans hK₃
    refine keeps_createInteriorParentOfBorder (hK hn) (hK hnb) fun p K₄ hK₄ hp => ?_
    exact keeps_splitRoot (hK₄ (hK hn)) (hK₄ (hK hnb)) hp
  · replace hn := hK₁ hn
    replace hnb := hK₁ hnb
    refine Keeps.bind (Keeps.load hn) fun check K₂ hK₂ _ => ?_
    refine Keeps.bind (Keeps.when fun _ => Keeps.logError) fun _ K₃ hK₃ _ => ?_
    refine Keeps.bind (keeps_getVersion (hK₃ (hK₂ hp))) fun parentIsBorder K₄ hK₄ _ => ?_
    have hK : K₁ ⊆ K₄ := hK₂.trans (hK₃.trans hK₄)
    replace hn := hK hn
    replace hnb := hK hnb
    replace hp := hK hp
    split
    · refine Keeps.bind (keeps_setVersionInsertingDeleting hp) fun _ K₅ hK₅ _ => ?_
      refine keeps_createInteriorParentOfBorder (hK₅ hn) (hK₅ hnb) fun pi K₆ hK₆ hpi => ?_
      have hK' : K₄ ⊆ K₆ := hK₅.trans hK₆
      have hH : (pi, true) ::ₘ (p, true) ::ₘ (nb, true) ::ₘ (n, true) ::ₘ R = (n, true) ::ₘ (pi, true) ::ₘ (p, true) ::ₘ
        (nb, true) ::ₘ R := by
        rw [third_first (x := (p, true)), Multiset.cons_swap (pi, true)]
      refine Keeps.bind (keeps_unlock (hK' hn) hH) fun _ K₇ hK₇ _ => ?_
      replace hK' := hK'.trans hK₇
      refine Keeps.bind (keeps_unlock (hK' hnb) third_first) fun _ K₈ hK₈ _ => ?_
      replace hK' := hK'.trans hK₈
      replace hpi := hK₈ (hK₇ hpi)
      refine Keeps.bind (Keeps.store hpi (fun _ => trivial) (knows_some (hK' hp))) fun _ K₉ hK₉ _ => ?_
      refine Keeps.bind (keeps_versionUnlock (hK₉ hpi)) fun _ K₁₀ hK₁₀ _ => ?_
      have hK'' : K₈ ⊆ K₁₀ := hK₉.trans hK₁₀
      refine Keeps.bind (keeps_getLv (hK'' (hK' hp))) fun lv K₁₁ hK₁₁ _ => ?_
      replace hK'' := hK''.trans hK₁₁
      refine Keeps.bind (keeps_setNextLayer (hK'' (hK' hp)) (Multiset.mem_cons_self _ _) (hK'' hpi)) fun _ K₁₂ hK₁₂ _ => ?_
      exact keeps_versionUnlock (hK₁₂ (hK'' (hK' hp)))
    · refine Keeps.bind (keeps_getVersion hp) fun deleted K₅ hK₅ _ => ?_
      refine Keeps.bind (Keeps.when fun _ => Keeps.logError) fun _ K₆ hK₆ _ => ?_
      have hK' : K₄ ⊆ K₆ := hK₅.trans hK₆
      refine Keeps.bind (keeps_setVersionRoot (hK' hn)) fun _ K₇ hK₇ _ => ?_
      replace hK' := hK'.trans hK₇
      refine Keeps.bind (keeps_setVersionRoot (hK' hnb)) fun _ K₇ hK₇ _ => ?_
      replace hK' := hK'.trans hK₇
      refine Keeps.bind (keeps_unlock (hK' hn) third_first) fun _ K₈ hK₈ _ => ?_
      replace hK' := hK'.trans hK₈
      refine Keeps.bind (keeps_unlock (hK' hnb) (Multiset.cons_swap _ _ _)) fun _ K₉ hK₉ _ => ?_
      replace hK' := hK'.trans hK₉
      refine Keeps.bind (Keeps.load (hK' hp)) fun nKeys K₁₀ hK₁₀ _ => ?_
      replace hK' := hK'.trans hK₁₀
      split
      · refine Keeps.bind (Keeps.load (hK' hnb)) fun slice K₁₁ hK₁₁ _ => ?_
        refine Keeps.bind (Keeps.load (hK₁₁ (hK' hnb))) fun length K₁₂ hK₁₂ _ => ?_
        replace hK' := hK'.trans (hK₁₁.trans hK₁₂)
        exact splitsInterior_interiorSplit fuel (hK' hp) (hK' hnb)
      · refine Keeps.bind (Keeps.store (hK' hnb) (fun _ => trivial) (knows_some (hK' hp))) fun _ K₁₁ hK₁₁ _ => ?_
        replace hK' := hK'.trans hK₁₁
        refine Keeps.bind (Keeps.load (hK' hnb)) fun slice K₁₂ hK₁₂ _ => ?_
        refine Keeps.bind (Keeps.load (hK₁₂ (hK' hnb))) fun length K₁₃ hK₁₃ _ => ?_
        replace hK' := hK'.trans (hK₁₂.trans hK₁₃)
        refine Keeps.bind (keeps_interiorInsert (hK' hp) (hK' hnb)) fun _ K₁₄ hK₁₄ _ => ?_
        exact keeps_versionUnlock (hK₁₄ (hK' hp))

theorem keeps_insertLv {key : Key} {v : ValuePtr} {rank : Nat} (hn : n ∈ K) :
    Keeps nothing K ((n, b) ::ₘ R) (insertLv fuel ti n key v rank) R Any := by
  have hd : (n, true) ∈ (n, true) ::ₘ R := Multiset.mem_cons_self _ _
  rw [insertLv]
  refine Keeps.bind (keeps_setVersionInsertingDeleting hn) fun _ K₁ hK₁ _ => ?_
  refine Keeps.bind (Keeps.load (hK₁ hn)) fun body K₂ hK₂ _ => ?_
  replace hn := hK₂ (hK₁ hn)
  have hrevive : Keeps nothing K₂ ((n, true) ::ₘ R) (reviveRoot fuel n) ((n, true) ::ₘ R) Any := by
    refine Keeps.bind (keeps_getVersion hn) fun root K₃ hK₃ _ => ?_
    refine Keeps.bind (Keeps.when fun _ => Keeps.logError) fun _ K₄ hK₄ _ => ?_
    exact keeps_setVersionDeleted (hK₄ (hK₃ hn)) hd
  refine Keeps.bind (Keeps.when fun _ => hrevive) fun _ K₃ hK₃ _ => ?_
  replace hn := hK₃ hn
  split
  · rw [borderSplit]
    refine keeps_borderSplitMove hn fun nb K₄ hK₄ hnb => ?_
    have hd₁ : (n, true) ∈ (nb, true) ::ₘ (n, true) ::ₘ R := Multiset.mem_cons_of_mem (Multiset.mem_cons_self _ _)
    refine Keeps.bind (keeps_borderSplitInsert (hK₄ hn) hnb hd₁ (Multiset.mem_cons_self _ _)) fun created K₅ hK₅ _ => ?_
    exact Keeps.bind (keeps_borderSplitParent (hK₅ (hK₄ hn)) (hK₅ hnb)) fun _ _ _ _ => Keeps.ret trivial
  · refine Keeps.bind (keeps_getEmptySlot hn) fun slot K₄ hK₄ _ => ?_
    refine Keeps.bind (keeps_insertLvAt (hK₄ hn) hd) fun created K₅ hK₅ _ => ?_
    exact Keeps.bind (keeps_versionUnlock (hK₅ (hK₄ hn))) fun _ _ _ _ => Keeps.ret trivial

/-! ### `put` -/

/-- `destroy` of new borders that were not published. -/
theorem destroy_followed {own : NodeId → Option Node} {K : Set NodeId} {e : Bool} {post : α → View → Prop} {k : Nat}
    {c : NodeId} {l : List NodeId} {f : Unit → M α} (h : Branch own c l)
    (hf : ∀ own' K' e', K ⊆ K' → (e = true → e' = true) → (∃ nd, own' c = some nd ∧ nd.version.locked = false) →
      (∀ m ∈ l, own' m = none) →
      (∀ m ∉ c :: l, own' m = own m) → discipline.Obeys post (f ()) ⟨H, own', K', e'⟩) :
    discipline.Obeys post (destroy k c >>= f) ⟨H, own, K, e⟩ := by
  induction k generalizing c l own K e α with
  | zero => exact trivial
  | succ k ih =>
    rw [destroy]
    simp only [Prog.bind_assoc]
    cases h with
    | @leaf n nd mine kind slots free first =>
      refine isBorderOwn_followed mine ?_
      rw [decide_eq_true kind, if_pos rfl, Prog.bind_assoc]
      refine loadOwn_followed mine ?_
      rw [show nd.get .permutation = nd.permutation from rfl, slots]
      simp only [forEach, Prog.bind_assoc]
      refine loadOwn_followed mine ?_
      rw [show nd.get (.lv 0) = nd.lv 0 from rfl]
      have hstore : ∀ K' e', K ⊆ K' → (e = true → e' = true) →
          discipline.Obeys post (store c (.lv 0) .empty >>= fun _ => pure () >>= f) ⟨H, own, K', e'⟩ := fun K' e' hK he =>
        storeOwn_followed mine rfl (hf _ K' e' hK he ⟨_, Function.update_self _ _ _, free⟩ nofun fun m hm =>
          Function.update_of_ne (List.ne_of_not_mem_cons hm) _ _)
      cases hlv : nd.lv 0 with
      | link c' =>
        rw [hlv] at first
        cases first
      | empty => exact hstore K e (Set.Subset.refl _) id
      | value v =>
        cases v with
        | word w => exact hstore K e (Set.Subset.refl _) id
        | heap v =>
          simp only [Prog.bind_assoc]
          refine keeps_needDelete.followed fun owned K₁ e₁ hK₁ he₁ _ => ?_
          split
          · exact (Keeps.same (o := .deleteBlock v) fun _ _ => rfl).followed fun _ K₂ e₂ hK₂ he₂ _ => hstore K₂ e₂
              (hK₁.trans hK₂) (he₂ ∘ he₁)
          · exact hstore K₁ e₁ hK₁ he₁
    | @link n nd c' l' mine kind slots free first below above =>
      refine isBorderOwn_followed mine ?_
      rw [decide_eq_true kind, if_pos rfl, Prog.bind_assoc]
      refine loadOwn_followed mine ?_
      rw [show nd.get .permutation = nd.permutation from rfl, slots]
      simp only [forEach, Prog.bind_assoc]
      refine loadOwn_followed mine ?_
      rw [show nd.get (.lv 0) = nd.lv 0 from rfl, first]
      simp only [Prog.bind_assoc]
      refine ih below fun own₁ K₁ e₁ hK₁ he₁ ⟨nd₁, ho₁, hl₁⟩ hnone hothers => ?_
      refine deleteNode_followed ho₁ hl₁ ?_
      have hcn : c ≠ c' := List.ne_of_not_mem_cons above
      have hmine : Function.update own₁ c' none c = some nd := by
        rw [Function.update_of_ne hcn, hothers c above, mine]
      refine storeOwn_followed hmine rfl
        (hf _ K₁ e₁ hK₁ he₁ ⟨_, Function.update_self _ _ _, free⟩ (fun m hm => ?_) fun m hm => ?_)
      · rw [Function.update_of_ne (ne_of_mem_of_not_mem hm above)]
        rcases List.mem_cons.mp hm with rfl | hm
        · exact Function.update_self _ _ _
        · by_cases hmc : m = c'
          · rw [hmc]
            exact Function.update_self _ _ _
          · rw [Function.update_of_ne hmc, hnone m hm]
      · obtain ⟨hmc, hml⟩ := List.ne_and_not_mem_of_not_mem_cons hm
        rw [Function.update_of_ne hmc, Function.update_of_ne (List.ne_of_not_mem_cons hml), hothers m hml]

theorem casRoot_followed {own : NodeId → Option Node} {e : Bool} {post : α → View → Prop} {k : Bool × Ptr → M α}
    (hc : Closed own K) (hn : (own n).isSome = true)
    (hyes : ∀ found K', K ⊆ K' → discipline.Obeys post (k (true, found)) ⟨H, nothing, K', e⟩)
    (hno : ∀ found, discipline.Obeys post (k (false, found)) ⟨H, own, K, e⟩) :
    discipline.Obeys post (op (.casRoot ti none (some n)) >>= k) ⟨H, own, K, e⟩ := by
  rintro ⟨stored, found⟩
  cases stored with
  | true =>
    refine Or.inr ⟨_, ⟨_, _, Or.inr ⟨hc, rfl⟩, ⟨fun _ m hm => ?_, rfl⟩, Or.inl rfl⟩, hyes found _ fun m hm => Or.inl hm⟩
    obtain rfl : n = m := Option.some.inj hm
    exact Or.inr hn
  | false => exact Or.inr ⟨_, ⟨_, _, Or.inl rfl, ⟨nofun, rfl⟩, Or.inl rfl⟩, hno found⟩

/-- The loop that publishes a new border `n`, from the drafts of the thread. -/
theorem publishRoot_followed {own : NodeId → Option Node} {e : Bool} {post : α → View → Prop} {f : Bool → M α} {k : Nat}
    (hc : Closed own K) (hn : (own n).isSome = true)
    (hyes : ∀ K', K ⊆ K' → discipline.Obeys post (f true) ⟨H, nothing, K', e⟩)
    (hno : discipline.Obeys post (f false) ⟨H, own, K, e⟩) : discipline.Obeys post (publishRoot ti n k >>= f)
    ⟨H, own, K, e⟩ := by
  induction k with
  | zero => exact trivial
  | succ k ih =>
    rw [publishRoot]
    simp only [Prog.bind_assoc]
    refine casRoot_followed hc hn (fun found K' hK' => ?_) fun found => ?_
    · exact hyes K' hK'
    · rw [if_neg (by simp)]
      by_cases hf : found ≠ none
      · rw [if_pos hf]
        exact hno
      · rw [if_neg hf]
        exact ih

/-- The thread knows the nodes that a label of `put` names. -/
def PutLabelKnown : PutLabel → Set NodeId → Prop
  | .rootNullptr, _ | .retryFromRoot, _ => True
  | .retryFindBorder root _, K => Knows root K
  | .retryFetchLv b _ _, K => b ∈ K

theorem PutLabelKnown.mono {label : PutLabel} {K K' : Set NodeId} (h : PutLabelKnown label K) (hK : K ⊆ K') :
    PutLabelKnown label K' := by
  cases label with
  | rootNullptr => exact trivial
  | retryFromRoot => exact trivial
  | retryFindBorder root key => exact Knows.mono h hK
  | retryFetchLv b v key => exact hK h

theorem keeps_recheck {vAtFb vAtFetchLv : Version} {traverseKey : Key} (hn : n ∈ K) :
    Keeps own K H (recheck n vAtFb vAtFetchLv traverseKey) H fun r K' => ∀ label, r = some label →
      PutLabelKnown label K' := by
  have hgone : ∀ {K}, n ∈ K → Keeps own K H (nowWrongNode n vAtFb) H Any := by
    intro K hn
    rw [nowWrongNode]
    refine Keeps.bind (?_ : Keeps own K H _ H Any) fun gone K₁ hK₁ _ => ?_
    · refine Keeps.bind (keeps_getVersion hn) fun deleted K₁ hK₁ _ => ?_
      split
      · exact Keeps.bind (keeps_getVersion (hK₁ hn)) fun _ _ _ _ => Keeps.ret trivial
      · exact Keeps.ret trivial
    · split
      · exact Keeps.ret trivial
      · exact Keeps.bind (keeps_getVersion (hK₁ hn)) fun _ _ _ _ => Keeps.ret trivial
  rw [recheck]
  refine Keeps.bind (hgone hn) fun wrong K₁ hK₁ _ => ?_
  split
  · refine Keeps.ret fun label h => ?_
    cases h
    exact trivial
  · refine Keeps.bind (keeps_getVersion (hK₁ hn)) fun vinsertDelete K₂ hK₂ _ => ?_
    split
    · refine Keeps.ret fun label h => ?_
      cases h
      exact hK₂ (hK₁ hn)
    · exact Keeps.ret fun label h => absurd h (by simp)

theorem keeps_putUpdate {token : Token} {args : PutArgs} {pos : Nat} (hc : args.value.Clear) (hn : n ∈ K) :
    Keeps nothing K ((n, b) ::ₘ R) (putUpdate fuel token args n pos) R Any := by
  rw [putUpdate]
  refine Keeps.bind (keeps_createValue hc) fun new K₁ hK₁ hnew => ?_
  obtain ⟨v, rfl⟩ := hnew
  refine Keeps.bind (keeps_setValue (hK₁ hn) (Multiset.mem_cons_self _ _)) fun ⟨created, old⟩ K₂ hK₂ ha => ?_
  clear ha
  refine Keeps.bind (keeps_versionUnlock (hK₂ (hK₁ hn))) fun _ K₃ hK₃ _ => ?_
  refine Keeps.bind (?_ : Keeps nothing K₃ R _ R Any) fun _ _ _ _ => Keeps.ret trivial
  cases old with
  | some o => exact keeps_pushValueContainer
  | none => exact Keeps.ret trivial

theorem keeps_putLoop {token : Token} {args : PutArgs} {k : Nat} {label : PutLabel} (hc : args.value.Clear)
    (hlabel : PutLabelKnown label K) :
    Keeps nothing K H (putLoop fuel (pure ()) token ti args k label) H Any := by
  induction k generalizing K label with
  | zero => exact Keeps.halt
  | succ k ih =>
    cases label with
    | rootNullptr =>
      rw [putLoop]
      simp only [Prog.pure_eq, Prog.ret_bind]
      refine Keeps.bind Keeps.loadRoot fun expected K hK _ => ?_
      split
      · intro e
        simp only [putNewBorder, Prog.bind_assoc]
        refine newNode_followed fun nb _ _ => ?_
        refine (keeps_createValue hc).followed fun new K₁ e₁ hK₁ he₁ hnew => ?_
        obtain ⟨v, rfl⟩ := hnew
        have hd : Drafted .border .init 0 .empty (Within nothing K₁ nb) (.fresh .border) := drafted_fresh
        refine draft_initBorderHead hd fun nd w hl hdirty hd => ?_
        refine grows fuel hd hl hdirty closed_nothing fun created own' K₂ e₂ l he₂ h => ?_
        obtain ⟨nd', ho⟩ := h.branch.own_some
        have hK₂ : K ⊆ K₂ := hK₁.trans h.known
        refine publishRoot_followed h.closed (Option.isSome_of_eq_some ho) (fun K₃ hK₃ => ?_) ?_
        · exact Keeps.after (Keeps.ret trivial) (hK₂.trans hK₃) (he₂ ∘ he₁)
        · refine destroy_followed h.branch fun own₃ K₃ e₃ hK₃ he₃ ⟨nd₃, ho₃, hl₃⟩ hnone hothers => ?_
          refine deleteNode_followed ho₃ hl₃ ?_
          have hnothing : Function.update own₃ nb none = nothing := by
            funext m
            by_cases hm : m = nb
            · rw [hm, Function.update_self]
              rfl
            · rw [Function.update_of_ne hm]
              by_cases hml : m ∈ l
              · exact hnone m hml
              · have hout := List.not_mem_cons_of_ne_of_not_mem hm hml
                exact (hothers m hout).trans (h.others m hout)
          rw [hnothing]
          refine Keeps.after (ih ?_) (hK₂.trans hK₃) (he₃ ∘ he₂ ∘ he₁)
          exact trivial
      · exact ih trivial
    | retryFromRoot =>
      rw [putLoop]
      refine Keeps.bind Keeps.loadRoot fun root K hK hroot => ?_
      split
      · exact ih trivial
      · exact ih hroot
    | retryFindBorder root traverseKey =>
      rw [putLoop]
      simp only [Prog.pure_eq, Prog.ret_bind]
      refine Keeps.bind (Keeps.when fun _ => Keeps.logError) fun _ K hK _ => ?_
      refine Keeps.bind (keeps_findBorder (Knows.mono hlabel hK)) fun ⟨special, b, v⟩ K hK hb => ?_
      split
      · exact ih trivial
      · exact Keeps.bind (Keeps.deref hb) fun b K hK hb => ih hb
    | retryFetchLv b vAtFb traverseKey =>
      rw [putLoop]
      simp only [Prog.pure_eq, Prog.ret_bind]
      refine Keeps.bind (keeps_getLvOf hlabel) fun ⟨pos, v⟩ K hK _ => ?_
      replace hlabel : b ∈ K := hK hlabel
      split
      · exact ih trivial
      · cases pos with
        | none =>
          refine Keeps.bind (keeps_lock hlabel) fun _ K hK _ => ?_
          replace hlabel := hK hlabel
          refine Keeps.bind (keeps_recheck hlabel) fun r K hK hr => ?_
          replace hlabel := hK hlabel
          cases r with
          | some label => exact Keeps.bind (keeps_versionUnlock hlabel) fun _ _ hK _ => ih ((hr label rfl).mono hK)
          | none =>
            refine Keeps.bind (keeps_createValue hc) fun new K hK hnew => ?_
            obtain ⟨value, rfl⟩ := hnew
            replace hlabel := hK hlabel
            refine Keeps.bind (keeps_computeRankIfInsert hlabel) fun rank K hK _ => ?_
            exact Keeps.bind (keeps_insertLv (hK hlabel)) fun _ _ _ _ => Keeps.ret trivial
        | some pos =>
          refine Keeps.bind (Keeps.load hlabel) fun targetLength K hK _ => ?_
          replace hlabel := hK hlabel
          dsimp only
          split
          · split
            · exact Keeps.ret trivial
            · refine Keeps.bind (keeps_lock hlabel) fun _ K hK _ => ?_
              replace hlabel := hK hlabel
              refine Keeps.bind (keeps_recheck hlabel) fun r K hK hr => ?_
              replace hlabel := hK hlabel
              cases r with
              | some label => exact Keeps.bind (keeps_versionUnlock hlabel) fun _ _ hK _ => ih ((hr label rfl).mono hK)
              | none => exact keeps_putUpdate hc hlabel
          · have hinterrupted : Keeps nothing K H
              (if targetLength ≤ sliceSize then recheck b vAtFb v traverseKey else pure none) H
                fun r K' => ∀ label, r = some label → PutLabelKnown label K' := by
              split
              · exact keeps_recheck hlabel
              · exact Keeps.ret fun label h => absurd h (by simp)
            refine Keeps.bind hinterrupted fun r K hK hr => ?_
            replace hlabel := hK hlabel
            cases r with
            | some label => exact ih (hr label rfl)
            | none =>
              refine Keeps.bind (Keeps.load hlabel) fun lv K hK hlv => ?_
              replace hlabel := hK hlabel
              refine Keeps.bind (keeps_getStableVersion hlabel) fun finalCheck K hK _ => ?_
              replace hlabel := hK hlabel
              replace hlv := Knows.mono hlv hK
              split
              · exact ih trivial
              · split
                · exact ih hlabel
                · exact Keeps.bind (Keeps.when fun _ => Keeps.logError) fun _ K hK _ => ih (hlv.mono hK)

theorem keeps_put {token : Token} {args : PutArgs} (hc : args.value.Clear) :
    Keeps nothing K H (put fuel (pure ()) token ti args) H Any :=
  keeps_putLoop hc trivial

end Protocol
end Yakushima
