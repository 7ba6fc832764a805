import Yakushima.Theorems.OwnershipReads
import Yakushima.Theorems.Value

/-! # Writers obey the discipline

What the parts of `put` and `remove` do with locks: whose they take and release, and that they change a node only under
its lock. -/

namespace Yakushima
namespace Protocol
open M Lib

variable {α : Type} {own : NodeId → Option Node} {K : Set NodeId} {H H₁ H' R : Multiset (NodeId × Bool)}
  {Q : α → Set NodeId → Prop} {n p : NodeId} {b : Bool} {fuel : Nat}

/-! ### Version words -/

theorem Keeps.cas {expected desired : Version} {k : Bool × Version → M α} (hn : n ∈ K)
    (hswap : ∀ e, View.Swaps ⟨H, own, K, e⟩ n expected desired ⟨H₁, own, K, e⟩)
    (hyes : ∀ v, Keeps own K H₁ (k (true, v)) H' Q) (hno : ∀ v, Keeps own K H (k (false, v)) H' Q) :
    Keeps own K H (op (.casVersion n expected desired) >>= k) H' Q := by
  rintro e ⟨stored, found⟩
  cases stored with
  | true => exact Or.inr ⟨_, ⟨_, _, Or.inl rfl, Or.inr ⟨rfl, Or.inl ⟨hn, hswap e⟩⟩, Or.inl rfl⟩, hyes found e⟩
  | false => exact Or.inr ⟨_, ⟨_, _, Or.inl rfl, Or.inl ⟨rfl, Or.inl hn, rfl⟩, Or.inl rfl⟩, hno found e⟩

theorem keeps_atomicUpdate {f : Version → Version} (hn : n ∈ K)
    (hswap : ∀ v K e, View.Swaps ⟨H, own, K, e⟩ n v (f v) ⟨H', own, K, e⟩) :
    Keeps own K H (atomicUpdate fuel n f) H' Any := by
  have hloop : ∀ fuel v {K}, n ∈ K → Keeps own K H (casLoop n f fuel v) H' Any := by
    intro fuel
    induction fuel with
    | zero => exact fun _ _ _ => Keeps.halt
    | succ fuel ih =>
      exact fun v K hn => Keeps.cas hn (fun e => hswap v K e) (fun _ => Keeps.ret trivial) fun found => ih found hn
  exact Keeps.bind (keeps_getBody hn) fun v K hK _ => hloop fuel v (hK hn)

theorem keeps_setVersionRoot {tf : Bool} (hn : n ∈ K) : Keeps own K H (setVersionRoot fuel n tf) H Any :=
  keeps_atomicUpdate hn fun _ _ _ => .setRoot rfl

theorem keeps_setVersionDeleted {tf : Bool} (hn : n ∈ K) (hb : (n, b) ∈ H) :
    Keeps own K H (setVersionDeleted fuel n tf) H Any :=
  keeps_atomicUpdate hn fun _ _ _ => .setDeleted ⟨b, hb⟩ rfl

theorem keeps_setVersionInsertingDeleting (hn : n ∈ K) :
    Keeps own K ((n, b) ::ₘ R) (setVersionInsertingDeleting fuel n true) ((n, true) ::ₘ R) Any :=
  keeps_atomicUpdate hn fun _ _ _ => .mark rfl (Or.inl rfl)

theorem keeps_setVersionSplitting (hn : n ∈ K) : Keeps own K ((n, b) ::ₘ R) (setVersionSplitting fuel n true)
    ((n, true) ::ₘ R) Any :=
  keeps_atomicUpdate hn fun _ _ _ => .mark rfl (Or.inr rfl)

theorem keeps_versionUnlock (hn : n ∈ K) : Keeps own K ((n, b) ::ₘ R) (versionUnlock fuel n) R Any :=
  keeps_atomicUpdate hn fun _ _ _ => .unlock rfl rfl

theorem keeps_lock (hn : n ∈ K) : Keeps own K H (lock n fuel) ((n, false) ::ₘ H) Any := by
  induction fuel generalizing K with
  | zero => exact Keeps.halt
  | succ fuel ih =>
    rw [lock]
    refine Keeps.bind (keeps_getBody hn) fun v K hK _ => ?_
    split
    · exact ih (hK hn)
    · rename_i hl
      exact Keeps.cas (hK hn) (fun _ => .lock (by simpa using hl) rfl) (fun _ => Keeps.ret trivial) fun _ => ih (hK hn)

/-- `lock_parent` takes the lock of the parent that it answers. -/
theorem lockParent_followed {f : Ptr → M α} {post : α → View → Prop} {e : Bool} (hn : n ∈ K)
    (hnone : ∀ K' e', K ⊆ K' → (e = true → e' = true) → discipline.Obeys post (f none) ⟨H, own, K', e'⟩)
    (hsome : ∀ p K' e', K ⊆ K' → (e = true → e' = true) → p ∈ K' →
      discipline.Obeys post (f (some p)) ⟨(p, false) ::ₘ H, own, K', e'⟩) :
    discipline.Obeys post (lockParent fuel n >>= f) ⟨H, own, K, e⟩ := by
  have hloop : ∀ k (c : Ptr) {K' e'}, K ⊆ K' → (e = true → e' = true) → Knows c K' →
      discipline.Obeys post (lockParentLoop fuel n k c >>= f) ⟨H, own, K', e'⟩ := by
    intro k
    induction k with
    | zero => exact fun _ _ _ _ _ _ => trivial
    | succ k ih =>
      intro c K₀ e₀ hK he hc
      cases c with
      | none => exact hnone K₀ e₀ hK he
      | some p =>
        rw [lockParentLoop, Prog.bind_assoc]
        refine (keeps_lock (hc p rfl)).followed fun _ K₁ e₁ hK₁ he₁ _ => ?_
        rw [Prog.bind_assoc]
        refine (Keeps.load (hK₁ (hK hn))).followed fun check K₂ e₂ hK₂ he₂ hcheck => ?_
        have hp : p ∈ K₂ := hK₂ (hK₁ (hc p rfl))
        replace hK : K ⊆ K₂ := hK.trans (hK₁.trans hK₂)
        replace he : e = true → e₂ = true := he₂ ∘ he₁ ∘ he
        split
        · exact hsome p K₂ e₂ hK he hp
        · rw [Prog.bind_assoc]
          refine (keeps_versionUnlock hp).followed fun _ K₃ e₃ hK₃ he₃ _ => ?_
          exact ih check (hK.trans hK₃) (he₃ ∘ he) (Knows.mono hcheck hK₃)
  rw [lockParent, Prog.bind_assoc]
  exact (Keeps.load hn).followed fun c K' e' hK he hc => hloop fuel c hK he hc

theorem keeps_lockParent {f : Ptr → M α} (hn : n ∈ K) (hnone : ∀ K', K ⊆ K' → Keeps own K' H (f none) H' Q)
    (hsome : ∀ p K', K ⊆ K' → p ∈ K' → Keeps own K' ((p, false) ::ₘ H) (f (some p)) H' Q) :
    Keeps own K H (lockParent fuel n >>= f) H' Q :=
  fun _ => lockParent_followed hn (fun K' _ hK he => (hnone K' hK).after hK he) fun p K' _ hK he hp =>
    (hsome p K' hK hp).after hK he

/-! ### Stores -/

theorem Keeps.store {f : Field α} {x : α} (hn : n ∈ K) (hs : ∀ e, View.Stores ⟨H, own, K, e⟩ n f) (hx : Knows (f.ptr x) K) :
    Keeps own K H (store n f x) H Any :=
  Keeps.same fun _ e => Or.inl ⟨⟨hn, hs e, hx⟩, rfl⟩

theorem Keeps.storeRoot {ti : TreeId} {c : Ptr} (hc : Knows c K) : Keeps own K H (op (.storeRoot ti c)) H Any :=
  Keeps.same fun _ _ => ⟨hc, rfl⟩

theorem Keeps.pushNode {token : Token} (hn : n ∈ K) : Keeps own K H (op (.pushNode token n)) H Any :=
  Keeps.same fun _ _ => ⟨hn, rfl⟩

theorem keeps_setKey {index : Nat} {slice : KeySlice} {length : Nat} (hn : n ∈ K) (hd : (n, true) ∈ H) :
    Keeps own K H (setKey n index slice length) H Any :=
  Keeps.bind (Keeps.store hn (fun _ => hd) knows_none) fun _ _ hK _ => Keeps.store (hK hn) (fun _ => hd) knows_none

theorem keeps_forEach {β : Type} {body : β → M Unit} {is : List β}
    (hbody : ∀ i K', K ⊆ K' → Keeps own K' H (body i) H Any) :
    Keeps own K H (forEach body is) H Any := by
  induction is generalizing K with
  | nil => exact Keeps.ret trivial
  | cons i is ih =>
    exact Keeps.bind (hbody i K (Set.Subset.refl _)) fun _ K' hK _ => ih fun i K'' hK' => hbody i K'' (hK.trans hK')

/-! ### Interiors -/

theorem keeps_moveKeyToBaseRange {right : NodeId} {start : Nat} (hn : n ∈ K) (hr : right ∈ K) (hd : (n, true) ∈ H)
    (hrd : (right, true) ∈ H) :
    Keeps own K H (moveKeyToBaseRange n right start) H Any :=
  keeps_forEach fun i K₁ hK₁ => by
    refine Keeps.bind (Keeps.load (hK₁ hn)) fun slice K₂ hK₂ _ => ?_
    refine Keeps.bind (Keeps.load (hK₂ (hK₁ hn))) fun length K₃ hK₃ _ => ?_
    have hK : K ⊆ K₃ := hK₁.trans (hK₂.trans hK₃)
    exact Keeps.bind (keeps_setKey (hK hr) hrd) fun _ K₄ hK₄ _ => keeps_setKey (hK₄ (hK hn)) hd

theorem keeps_shiftRightChildren {start : Nat} (hn : n ∈ K) (hb : (n, b) ∈ H) :
    Keeps own K H (shiftRightChildren n start) H Any :=
  Keeps.bind (Keeps.load hn) fun _ _ hK _ => keeps_forEach fun _ _ hK₁ =>
    Keeps.bind (Keeps.load (hK₁ (hK hn))) fun _ _ hK₂ hc => Keeps.store (hK₂ (hK₁ (hK hn))) (fun _ => ⟨b, hb⟩) hc

theorem keeps_shiftLeftChildren {start size : Nat} (hn : n ∈ K) (hb : (n, b) ∈ H) :
    Keeps own K H (shiftLeftChildren n start size) H Any :=
  keeps_forEach fun _ _ hK₁ =>
    Keeps.bind (Keeps.load (hK₁ hn)) fun _ _ hK₂ hc => Keeps.store (hK₂ (hK₁ hn)) (fun _ => ⟨b, hb⟩) hc

theorem keeps_fetchAddNKeys {d : Nat} (hn : n ∈ K) (hd : (n, true) ∈ H) : Keeps own K H (op (.fetchAddNKeys n d)) H Any :=
  Keeps.same fun _ _ => Or.inl ⟨⟨hn, hd⟩, rfl⟩

theorem keeps_interiorInsert {child : NodeId} {slice : KeySlice} {length : Nat} (hn : n ∈ K) (hc : child ∈ K) :
    Keeps own K ((n, b) ::ₘ R) (interiorInsert fuel n child slice length) ((n, true) ::ₘ R) Any := by
  have hd : (n, true) ∈ (n, true) ::ₘ R := Multiset.mem_cons_self _ _
  rw [interiorInsert]
  refine Keeps.bind (keeps_setVersionInsertingDeleting hn) fun _ K₁ hK₁ _ => ?_
  refine Keeps.bind (Keeps.load (hK₁ hn)) fun nKey K₂ hK₂ _ => ?_
  refine Keeps.bind (keeps_searchPivot (hK₂ (hK₁ hn))) fun pos K₃ hK₃ _ => ?_
  have hK : K ⊆ K₃ := hK₁.trans (hK₂.trans hK₃)
  cases pos with
  | some i =>
    refine Keeps.bind (Keeps.same fun _ _ => ⟨⟨hK hn, hd⟩, rfl⟩) fun _ K₄ hK₄ _ => ?_
    replace hK := hK.trans hK₄
    refine Keeps.bind (keeps_setKey (hK hn) hd) fun _ K₅ hK₅ _ => ?_
    replace hK := hK.trans hK₅
    refine Keeps.bind (keeps_shiftRightChildren (hK hn) hd) fun _ K₆ hK₆ _ => ?_
    replace hK := hK.trans hK₆
    refine Keeps.bind (Keeps.store (hK hn) (fun _ => ⟨true, hd⟩) (knows_some (hK hc))) fun _ K₇ hK₇ _ => ?_
    exact keeps_fetchAddNKeys (hK₇ (hK hn)) hd
  | none =>
    refine Keeps.bind (keeps_setKey (hK hn) hd) fun _ K₄ hK₄ _ => ?_
    replace hK := hK.trans hK₄
    refine Keeps.bind (Keeps.store (hK hn) (fun _ => ⟨true, hd⟩) (knows_some (hK hc))) fun _ K₅ hK₅ _ => ?_
    exact keeps_fetchAddNKeys (hK₅ (hK hn)) hd

theorem keeps_moveChildrenToInteriorRange {right : NodeId} {start : Nat} {b' : Bool} (hn : n ∈ K) (hr : right ∈ K)
    (hb : (n, b) ∈ H) (hrb : (right, b') ∈ H) : Keeps own K H (moveChildrenToInteriorRange n right start) H Any :=
  keeps_forEach fun i K₁ hK₁ => by
    refine Keeps.bind (Keeps.load (hK₁ hn)) fun c K₂ hK₂ hc => ?_
    have hK : K ⊆ K₂ := hK₁.trans hK₂
    refine Keeps.bind (Keeps.store (hK hr) (fun _ => ⟨b', hrb⟩) hc) fun _ K₃ hK₃ _ => ?_
    replace hK := hK.trans hK₃
    refine Keeps.bind (Keeps.deref (Knows.mono hc hK₃)) fun c K₄ hK₄ hc => ?_
    replace hK := hK.trans hK₄
    refine Keeps.bind (Keeps.store hc (fun _ => trivial) (knows_some (hK hr))) fun _ K₅ hK₅ _ => ?_
    exact Keeps.store (hK₅ (hK hn)) (fun _ => ⟨b, hb⟩) knows_none

theorem keeps_swapChild {old new : Ptr} (hn : n ∈ K) (hb : (n, b) ∈ H) (hnew : Knows new K) :
    Keeps own K H (swapChild n old new) H Any := by
  rw [swapChild]
  generalize List.range childLength = is
  induction is generalizing K with
  | nil => exact Keeps.logError
  | cons i is ih =>
    rw [swapChildLoop]
    refine Keeps.bind (Keeps.load hn) fun c K₁ hK₁ _ => ?_
    split
    · exact Keeps.store (hK₁ hn) (fun _ => ⟨b, hb⟩) (hnew.mono hK₁)
    · exact ih (hK₁ hn) (hnew.mono hK₁)

/-! ### Borders -/

theorem keeps_initBorderAt {pos : Nat} (hn : n ∈ K) (hd : (n, true) ∈ H) : Keeps own K H (initBorderAt n pos) H Any :=
  Keeps.bind (keeps_setKey hn hd) fun _ _ hK _ => Keeps.store (hK hn) (fun _ => ⟨true, hd⟩) knows_none

theorem keeps_getEmptySlot (hn : n ∈ K) : Keeps own K H (getEmptySlot n) H Any := by
  rw [getEmptySlot]
  refine Keeps.bind (Keeps.load hn) fun body K hK _ => ?_
  split
  · split
    · exact Keeps.ret trivial
    · exact Keeps.bind Keeps.logError fun _ _ _ _ => Keeps.ret trivial
  · exact Keeps.halt

theorem keeps_storePermutation {f : Nat → Nat} (hn : n ∈ K) (hb : (n, b) ∈ H) :
    Keeps own K H (load n .permutation >>= fun body => store n .permutation (f body)) H Any :=
  Keeps.bind (Keeps.load hn) fun _ _ hK _ => Keeps.store (hK hn) (fun _ => ⟨b, hb⟩) knows_none

theorem keeps_incKeyNum (hn : n ∈ K) (hb : (n, b) ∈ H) : Keeps own K H (incKeyNum n) H Any :=
  Keeps.bind (Keeps.load hn) fun _ _ hK _ => Keeps.bind (Keeps.when fun _ => Keeps.logError) fun _ _ hK' _ =>
    Keeps.store (hK' (hK hn)) (fun _ => ⟨b, hb⟩) knows_none

theorem keeps_decKeyNum (hn : n ∈ K) (hb : (n, b) ∈ H) : Keeps own K H (decKeyNum n) H Any :=
  Keeps.bind (Keeps.load hn) fun _ _ hK _ => Keeps.bind (Keeps.when fun _ => Keeps.logError) fun _ _ hK' _ =>
    Keeps.store (hK' (hK hn)) (fun _ => ⟨b, hb⟩) knows_none

theorem keeps_insertRank {rank pos : Nat} (hn : n ∈ K) (hb : (n, b) ∈ H) : Keeps own K H (insertRank n rank pos) H Any :=
  keeps_storePermutation hn hb

theorem keeps_deleteRank {rank : Nat} (hn : n ∈ K) (hb : (n, b) ∈ H) : Keeps own K H (deleteRank n rank) H Any :=
  keeps_storePermutation hn hb

theorem keeps_setNextLayer {pos : Option Nat} {node : NodeId} (hn : n ∈ K) (hb : (n, b) ∈ H) (hnode : node ∈ K) :
    Keeps own K H (setNextLayer n pos node) H Any := by
  cases pos with
  | some i => exact Keeps.store hn (fun _ => ⟨b, hb⟩) (knows_some hnode)
  | none => exact Keeps.halt

/-! ### Values -/

theorem keeps_createValue {arg : ValueArg} (hc : arg.Clear) :
    Keeps own K H (createValue arg) H fun new _ => ∃ v : ValuePtr, new = v := by
  cases arg with
  | word w => exact Keeps.ret ⟨_, LinkOrValue.ofWord_of_clear hc⟩
  | heap bytes align => exact Keeps.bind (Keeps.same fun _ _ => rfl) fun v _ _ _ => Keeps.ret ⟨.heap v, rfl⟩

theorem keeps_pushValueContainer {token : Token} {v : ValueId} : Keeps own K H (pushValueContainer token v) H Any :=
  Keeps.bind Keeps.loadBlock fun _ _ _ _ => Keeps.same fun _ _ => rfl

theorem keeps_takeOldValue {keepOld : Bool} {v : ValuePtr} : Keeps own K H (takeOldValue keepOld v) H Any := by
  cases v with
  | word w => exact Keeps.ret trivial
  | heap v =>
    rw [takeOldValue]
    refine Keeps.bind keeps_needDelete fun owned K _ _ => ?_
    split
    · split
      · exact Keeps.ret trivial
      · exact Keeps.bind (Keeps.same fun _ _ => rfl) fun _ _ _ _ => Keeps.ret trivial
    · exact Keeps.ret trivial

theorem keeps_setValue {pos : Nat} {new : ValuePtr} {keepOld : Bool} (hn : n ∈ K) (hb : (n, b) ∈ H) :
    Keeps own K H (setValue n pos new keepOld) H Any :=
  Keeps.bind (Keeps.load hn) fun _ _ hK _ => Keeps.bind keeps_takeOldValue fun _ _ hK' _ =>
    Keeps.bind (Keeps.store (hK' (hK hn)) (fun _ => ⟨b, hb⟩) knows_none) fun _ _ _ _ => Keeps.ret trivial

theorem keeps_deleteAt {token : Token} {rank pos : Nat} {targetIsValue : Bool} (hn : n ∈ K) (hb : (n, b) ∈ H) :
    Keeps own K H (deleteAt token n rank pos targetIsValue) H Any := by
  have hrelease : Keeps own K H (releaseValue token n pos) H Any := by
    rw [releaseValue]
    refine Keeps.bind (Keeps.load hn) fun lv K hK _ => ?_
    split
    · refine Keeps.bind (Keeps.same fun _ _ => rfl) fun _ K₁ hK₁ _ => ?_
      refine Keeps.bind keeps_pushValueContainer fun _ K₂ hK₂ _ => ?_
      exact Keeps.store (hK₂ (hK₁ (hK hn))) (fun _ => ⟨b, hb⟩) knows_none
    · exact Keeps.ret trivial
  refine Keeps.bind (Keeps.when fun _ => hrelease) fun _ K₁ hK₁ _ => ?_
  refine Keeps.bind (keeps_deleteRank (hK₁ hn) hb) fun _ K₂ hK₂ _ => ?_
  exact keeps_decKeyNum (hK₂ (hK₁ hn)) hb

/-! ### Deletions

A deletion that does not find what it looks for reports an error and keeps the lock. -/

/-- The thread has the locks `R`, or reported an error. -/
def Abandons (own : NodeId → Option Node) (K : Set NodeId) (e : Bool) (R : Multiset (NodeId × Bool)) (g : View) : Prop :=
  (g.held = R ∨ g.failed = true) ∧ g.own = own ∧ K ⊆ g.known ∧ (e = true → g.failed = true)

/-- The program gives the locks but `R` back, or reports an error. -/
def Ends {α : Type} (own : NodeId → Option Node) (K : Set NodeId) (H : Multiset (NodeId × Bool)) (p : M α)
    (R : Multiset (NodeId × Bool)) : Prop :=
  ∀ e, discipline.Obeys (fun _ => Abandons own K e R) p ⟨H, own, K, e⟩

theorem Ends.after {p : M α} {K' : Set NodeId} {e e' : Bool} (hp : Ends own K' H p R) (hK : K ⊆ K')
    (he : e = true → e' = true) :
    discipline.Obeys (fun _ => Abandons own K e R) p ⟨H, own, K', e'⟩ :=
  (hp e').mono fun _ _ ⟨h₁, h₂, h₃, h₄⟩ => ⟨h₁, h₂, hK.trans h₃, h₄ ∘ he⟩

theorem Keeps.ends {p : M α} (h : Keeps own K H p R Q) : Ends own K H p R :=
  fun e => (h e).mono fun _ _ ⟨h₁, h₂, h₃, h₄, _⟩ => ⟨Or.inl h₁, h₂, h₃, h₄⟩

theorem ends_logError {e : LogError} : Ends own K H (logError e) R :=
  fun _ _ => Or.inr ⟨_, ⟨_, _, Or.inl rfl, rfl, Or.inl rfl⟩, Or.inr rfl, rfl, Set.Subset.refl _, fun _ => rfl⟩

/-- First a part that gives no locks back. -/
theorem Ends.bind {β : Type} {p : M α} {f : α → M β} (hp : Keeps own K H p H₁ Q)
    (hf : ∀ a K', K ⊆ K' → Q a K' → Ends own K' H₁ (f a) R) :
    Ends own K H (p >>= f) R :=
  fun _ => hp.followed fun a K' _ hK he ha => (hf a K' hK ha).after hK he

theorem ends_lockParent {f : Ptr → M α} (hn : n ∈ K) (hnone : ∀ K', K ⊆ K' → Ends own K' H (f none) R)
    (hsome : ∀ p K', K ⊆ K' → p ∈ K' → Ends own K' ((p, false) ::ₘ H) (f (some p)) R) :
    Ends own K H (lockParent fuel n >>= f) R :=
  fun _ => lockParent_followed hn (fun K' _ hK he => (hnone K' hK).after hK he) fun p K' _ hK he hp =>
    (hsome p K' hK hp).after hK he

/-- Last a part that does nothing with locks. -/
theorem Ends.then {β : Type} {p : M α} {f : α → M β} (hp : Ends own K H p R)
    (hf : ∀ a K' H, K ⊆ K' → Keeps own K' H (f a) H Any) :
    Ends own K H (p >>= f) R := by
  intro e
  refine Lib.Discipline.Obeys.bind (fun a ⟨held, own', K', e'⟩ hg => ?_) (hp e)
  obtain ⟨hheld, rfl, hK, he⟩ := hg
  refine (hf a K' held hK e').mono fun b g' ⟨h₁, h₂, h₃, h₄, _⟩ => ⟨?_, h₂, hK.trans h₃, h₄ ∘ he⟩
  exact hheld.imp (fun h => h₁.trans h) h₄

theorem keeps_collapseRoot {ti : TreeId} {i : Nat} (hn : n ∈ K) : Keeps own K H (collapseRoot fuel ti n i) H Any := by
  rw [collapseRoot]
  refine Keeps.bind (Keeps.load hn) fun c K₁ hK₁ hc => ?_
  refine Keeps.bind (Keeps.deref hc) fun sibling K₂ hK₂ hs => ?_
  refine Keeps.bind (keeps_setVersionRoot hs) fun _ K₃ hK₃ _ => ?_
  have hK : K ⊆ K₃ := hK₁.trans (hK₂.trans hK₃)
  refine Keeps.bind (Keeps.load (hK hn)) fun c' K₄ hK₄ hc' => ?_
  refine Keeps.bind (Keeps.storeRoot hc') fun _ K₅ hK₅ _ => ?_
  replace hK := hK.trans (hK₄.trans hK₅)
  refine Keeps.bind (Keeps.load (hK hn)) fun c K₆ hK₆ hc => ?_
  refine Keeps.bind (Keeps.deref hc) fun sibling K₇ hK₇ hs => ?_
  exact Keeps.store hs (fun _ => trivial) knows_none

theorem keeps_collapseInto {i : Nat} (hn : n ∈ K) (hp : p ∈ K) :
    Keeps own K ((p, b) ::ₘ R) (collapseInto fuel n i p) R Any := by
  have hb : (p, b) ∈ (p, b) ::ₘ R := Multiset.mem_cons_self _ _
  rw [collapseInto]
  refine Keeps.bind (keeps_getVersion hp) fun parentIsBorder K₁ hK₁ _ => ?_
  have hreplace : Keeps own K₁ ((p, b) ::ₘ R) (if parentIsBorder = true then do
      let lv ← getLv p n
      let sibling ← deref (← load n (.child i))
      setNextLayer p lv sibling
      setVersionRoot fuel sibling true
    else do
      let sibling ← load n (.child i)
      swapChild p (some n) sibling) ((p, b) ::ₘ R) Any := by
    replace hn := hK₁ hn
    replace hp := hK₁ hp
    split
    · refine Keeps.bind (keeps_getLv hp) fun lv K₂ hK₂ _ => ?_
      refine Keeps.bind (Keeps.load (hK₂ hn)) fun c K₃ hK₃ hc => ?_
      refine Keeps.bind (Keeps.deref hc) fun sibling K₄ hK₄ hs => ?_
      refine Keeps.bind (keeps_setNextLayer (hK₄ (hK₃ (hK₂ hp))) hb hs) fun _ K₅ hK₅ _ => ?_
      exact keeps_setVersionRoot (hK₅ hs)
    · refine Keeps.bind (Keeps.load hn) fun c K₂ hK₂ hc => ?_
      exact keeps_swapChild (hK₂ hp) hb hc
  refine Keeps.bind hreplace fun _ K₂ hK₂ _ => ?_
  have hK : K ⊆ K₂ := hK₁.trans hK₂
  refine Keeps.bind (Keeps.load (hK hn)) fun c K₃ hK₃ hc => ?_
  refine Keeps.bind (Keeps.deref hc) fun sibling K₄ hK₄ hs => ?_
  replace hK := hK.trans (hK₃.trans hK₄)
  refine Keeps.bind (Keeps.store hs (fun _ => trivial) (knows_some (hK hp))) fun _ K₅ hK₅ _ => ?_
  exact keeps_versionUnlock (hK₅ (hK hp))

theorem keeps_collapse {token : Token} {ti : TreeId} {i : Nat} (hn : n ∈ K) :
    Keeps own K ((n, true) ::ₘ R) (collapse fuel token ti n i) R Any := by
  have hd : (n, true) ∈ (n, true) ::ₘ R := Multiset.mem_cons_self _ _
  rw [collapse]
  refine Keeps.bind (keeps_setVersionDeleted hn hd) fun _ K₁ hK₁ _ => ?_
  refine Keeps.bind (keeps_setVersionRoot (hK₁ hn)) fun _ K₂ hK₂ _ => ?_
  refine Keeps.bind (keeps_fetchAddNKeys (hK₂ (hK₁ hn)) hd) fun _ K₃ hK₃ _ => ?_
  have hK : K ⊆ K₃ := hK₁.trans (hK₂.trans hK₃)
  have hleave : ∀ {K}, n ∈ K → Keeps own K ((n, true) ::ₘ R) (do
      versionUnlock fuel n
      op (.pushNode token n)) R Any := fun hn =>
    Keeps.bind (keeps_versionUnlock hn) fun _ _ hK _ => Keeps.pushNode (hK hn)
  refine keeps_lockParent (hK hn) (fun K₄ hK₄ => ?_) fun p K₄ hK₄ hp => ?_
  · exact Keeps.bind (keeps_collapseRoot (hK₄ (hK hn))) fun _ _ hK₅ _ => hleave (hK₅ (hK₄ (hK hn)))
  · exact Keeps.bind (keeps_collapseInto (hK₄ (hK hn)) hp) fun _ _ hK₅ _ => hleave (hK₅ (hK₄ (hK hn)))

theorem keeps_dropChild {i nKey : Nat} (hn : n ∈ K) : Keeps own K ((n, true) ::ₘ R) (dropChild fuel n i nKey) R Any := by
  have hd : (n, true) ∈ (n, true) ::ₘ R := Multiset.mem_cons_self _ _
  have hshift : ∀ start from' : Nat, Keeps own K ((n, true) ::ₘ R) (do
      op (.shiftLeftKeys n start 1)
      shiftLeftChildren n from' 1
      store n (.child nKey) none) ((n, true) ::ₘ R) Any := fun _ _ =>
    Keeps.bind (Keeps.same fun _ _ => ⟨⟨hn, hd⟩, rfl⟩) fun _ _ hK _ =>
      Keeps.bind (keeps_shiftLeftChildren (hK hn) hd) fun _ _ hK' _ => Keeps.store (hK' (hK hn))
        (fun _ => ⟨true, hd⟩) knows_none
  have hmove : Keeps own K ((n, true) ::ₘ R) (if i = 0 then do
      op (.shiftLeftKeys n 1 1)
      shiftLeftChildren n 1 1
      store n (.child nKey) none
    else if i = nKey then store n (.child i) none
    else do
      op (.shiftLeftKeys n i 1)
      shiftLeftChildren n (i + 1) 1
      store n (.child nKey) none) ((n, true) ::ₘ R) Any := by
    split
    · exact hshift 1 1
    · split
      · exact Keeps.store hn (fun _ => ⟨true, hd⟩) knows_none
      · exact hshift i (i + 1)
  rw [dropChild]
  refine Keeps.bind hmove fun _ K₁ hK₁ _ => ?_
  refine Keeps.bind (keeps_setKey (hK₁ hn) hd) fun _ K₂ hK₂ _ => ?_
  refine Keeps.bind (keeps_fetchAddNKeys (hK₂ (hK₁ hn)) hd) fun _ K₃ hK₃ _ => ?_
  exact keeps_versionUnlock (hK₃ (hK₂ (hK₁ hn)))

theorem ends_interiorDeleteOf {token : Token} {ti : TreeId} {child : NodeId} (hn : n ∈ K) :
    Ends own K ((n, b) ::ₘ R) (interiorDeleteOf fuel token ti n child) R := by
  rw [interiorDeleteOf]
  refine Ends.bind (keeps_setVersionInsertingDeleting hn) fun _ K₁ hK₁ _ => ?_
  refine Ends.bind (Keeps.load (hK₁ hn)) fun nKey K₂ hK₂ _ => ?_
  refine Ends.bind (Keeps.when fun _ => Keeps.logError) fun _ K₃ hK₃ _ => ?_
  have hK : K ⊆ K₃ := hK₁.trans (hK₂.trans hK₃)
  refine Ends.bind (keeps_searchChildPtr (hK hn)) fun pos K₄ hK₄ _ => ?_
  cases pos with
  | some i =>
    dsimp only
    split
    · exact (keeps_collapse (hK₄ (hK hn))).ends
    · exact (keeps_dropChild (hK₄ (hK hn))).ends
  | none => exact ends_logError

theorem keeps_setPrevOfNext {c : Ptr} (hn : n ∈ K) (hc : Knows c K) : Keeps own K H (setPrevOfNext n c) H Any := by
  refine Keeps.bind (Keeps.load hn) fun next K₁ hK₁ hnext => ?_
  cases next with
  | some nx => exact Keeps.store (hnext nx rfl) (fun _ => trivial) (hc.mono hK₁)
  | none => exact Keeps.ret trivial

theorem keeps_unlinkPrev {k : Nat} (hn : n ∈ K) : Keeps own K H (unlinkPrev fuel n k) H Any := by
  induction k generalizing K with
  | zero => exact Keeps.halt
  | succ k ih =>
    rw [unlinkPrev]
    refine Keeps.bind (Keeps.load hn) fun prev K₁ hK₁ hprev => ?_
    cases prev with
    | none => exact keeps_setPrevOfNext (hK₁ hn) knows_none
    | some p =>
      have hp : p ∈ K₁ := hprev p rfl
      have hb : (p, false) ∈ (p, false) ::ₘ H := Multiset.mem_cons_self _ _
      refine Keeps.bind (keeps_lock hp) fun _ K₂ hK₂ _ => ?_
      refine Keeps.bind (keeps_isStale (hK₂ (hK₁ hn)) (hK₂ hp)) fun stale K₄ hK₄ _ => ?_
      replace hn : n ∈ K₄ := hK₄ (hK₂ (hK₁ hn))
      replace hp : p ∈ K₄ := hK₄ (hK₂ hp)
      split
      · exact Keeps.bind (keeps_versionUnlock hp) fun _ _ hK _ => ih (hK hn)
      · refine Keeps.bind (Keeps.load hn) fun next K₅ hK₅ hnext => ?_
        refine Keeps.bind (Keeps.store (hK₅ hp) (fun _ => ⟨false, hb⟩) hnext) fun _ K₆ hK₆ _ => ?_
        have hK : K₄ ⊆ K₆ := hK₅.trans hK₆
        refine Keeps.bind (keeps_setPrevOfNext (hK hn) (knows_some (hK hp))) fun _ K₇ hK₇ _ => ?_
        exact keeps_versionUnlock (hK₇ (hK hp))

theorem ends_borderDeleteOf {token : Token} {ti : TreeId} {k : Nat} {slice : KeySlice} {length : Nat}
    {targetIsValue : Bool} (hn : n ∈ K) :
    Ends own K ((n, b) ::ₘ R) (borderDeleteOf fuel token ti k n slice length targetIsValue) R := by
  induction k generalizing K n b slice length targetIsValue with
  | zero => exact Keeps.ends (Q := Any) Keeps.halt
  | succ k ih =>
    have hb : (n, b) ∈ (n, b) ::ₘ R := Multiset.mem_cons_self _ _
    -- The parent gives its lock back.
    have hparent : ∀ {p K}, p ∈ K → Ends own K ((p, false) ::ₘ R)
        (leaveParent fuel token ti (fun slice length => borderDeleteOf fuel token ti k p slice length false) p n) R := by
      intro p K hp
      rw [leaveParent]
      refine Ends.bind (keeps_getVersion hp) fun parentIsBorder K₁ hK₁ _ => ?_
      replace hp := hK₁ hp
      split
      · refine Ends.bind (Keeps.load hp) fun pBody K₂ hK₂ _ => ?_
        refine Ends.bind (keeps_searchLink (hK₂ hp)) fun index K₃ hK₃ _ => ?_
        replace hp := hK₃ (hK₂ hp)
        cases index with
        | none => exact ends_logError
        | some index =>
          refine Ends.bind (Keeps.load hp) fun slice K₄ hK₄ _ => ?_
          refine Ends.bind (Keeps.load (hK₄ hp)) fun length K₅ hK₅ _ => ?_
          exact ih (hK₅ (hK₄ hp))
      · exact ends_interiorDeleteOf hp
    rw [borderDeleteOf]
    refine Ends.bind (Keeps.load hn) fun body K₁ hK₁ _ => ?_
    refine Ends.bind (keeps_searchKey (hK₁ hn)) fun found K₂ hK₂ _ => ?_
    replace hn := hK₂ (hK₁ hn)
    rcases found with _ | ⟨rank, index⟩
    · exact ends_logError
    · refine Ends.bind (keeps_deleteAt hn hb) fun _ K₃ hK₃ _ => ?_
      replace hn := hK₃ hn
      split
      · refine Ends.bind (keeps_setVersionDeleted hn hb) fun _ K₄ hK₄ _ => ?_
        refine Ends.bind Keeps.loadRoot fun root K₅ hK₅ _ => ?_
        replace hn := hK₅ (hK₄ hn)
        refine Ends.bind (Keeps.when fun _ => keeps_setVersionRoot hn) fun _ K₆ hK₆ _ => ?_
        refine Ends.bind (keeps_unlinkPrev (hK₆ hn)) fun _ K₇ hK₇ _ => ?_
        replace hn := hK₇ (hK₆ hn)
        refine ends_lockParent hn (fun K₈ hK₈ => ?_) fun p K₈ hK₈ hp => ?_
        · exact (keeps_versionUnlock (hK₈ hn)).ends
        · replace hn := hK₈ hn
          refine Ends.bind (keeps_setVersionRoot hn) fun _ K₉ hK₉ _ => ?_
          replace hp := hK₉ hp
          replace hn := hK₉ hn
          have hunlock : Keeps own K₉ ((p, false) ::ₘ (n, b) ::ₘ R) (versionUnlock fuel n) ((p, false) ::ₘ R) Any := by
            rw [Multiset.cons_swap]
            exact keeps_versionUnlock hn
          refine Ends.bind hunlock fun _ K₁₀ hK₁₀ _ => ?_
          exact (hparent (hK₁₀ hp)).then fun _ _ _ hK => Keeps.pushNode (hK (hK₁₀ hn))
      · exact (keeps_versionUnlock hn).ends

/-! ### `remove` -/

theorem Ends.ret {a : α} : Ends own K H (.ret a) H := (Keeps.ret (Q := Any) trivial).ends

theorem ends_removeLoop {token : Token} {ti : TreeId} {key : Key} {k : Nat} {label : Label} (hlabel : LabelKnown label K) :
    Ends own K H (removeLoop fuel (pure ()) token ti key k label) H := by
  induction k generalizing K label with
  | zero => exact Keeps.ends (Q := Any) Keeps.halt
  | succ k ih =>
    cases label with
    | retryFromRoot =>
      rw [removeLoop]
      refine Ends.bind Keeps.loadRoot fun root K hK hroot => ?_
      split
      · exact Ends.ret
      · exact ih hroot
    | retryFindBorder root traverseKey =>
      rw [removeLoop]
      simp only [Prog.pure_eq, Prog.ret_bind]
      refine Ends.bind (Keeps.when fun _ => Keeps.logError) fun _ K hK _ => ?_
      refine Ends.bind (keeps_findBorder (Knows.mono hlabel hK)) fun ⟨special, b, v⟩ K hK hb => ?_
      split
      · exact ih trivial
      · cases b with
        | none => exact ih trivial
        | some b => exact ih (hb b rfl)
    | retryFetchLv b vAtFb traverseKey =>
      rw [removeLoop]
      simp only [Prog.pure_eq, Prog.ret_bind]
      refine Ends.bind (keeps_getLvOf hlabel) fun ⟨pos, v⟩ K hK _ => ?_
      replace hlabel : b ∈ K := hK hlabel
      split
      · exact ih trivial
      · cases pos with
        | none =>
          refine Ends.bind (keeps_getStableVersion hlabel) fun finalCheck K hK _ => ?_
          split
          · exact ih (hK hlabel)
          · exact Ends.ret
        | some pos =>
          refine Ends.bind (Keeps.load hlabel) fun length K hK _ => ?_
          replace hlabel := hK hlabel
          dsimp only
          split
          · refine Ends.bind (keeps_lock hlabel) fun _ K hK _ => ?_
            replace hlabel := hK hlabel
            refine Ends.bind (keeps_getBody hlabel) fun finalCheck K hK _ => ?_
            replace hlabel := hK hlabel
            split
            · exact Ends.bind (keeps_versionUnlock hlabel) fun _ _ _ _ => ih trivial
            · split
              · exact Ends.bind (keeps_versionUnlock hlabel) fun _ _ hK _ => ih (hK hlabel)
              · refine Ends.bind (keeps_getLvOfWithoutLock hlabel) fun found K hK _ => ?_
                replace hlabel := hK hlabel
                cases found with
                | none => exact Ends.bind (keeps_versionUnlock hlabel) fun _ _ _ _ => Ends.ret
                | some found => exact (ends_borderDeleteOf hlabel).then fun _ _ _ _ => Keeps.ret trivial
          · refine Ends.bind (Keeps.load hlabel) fun lv K hK hlv => ?_
            replace hlabel := hK hlabel
            refine Ends.bind (keeps_getStableVersion hlabel) fun finalCheck K hK _ => ?_
            split
            · exact ih trivial
            · split
              · exact ih (hK hlabel)
              · exact ih (Knows.mono hlv hK)

theorem ends_remove {token : Token} {ti : TreeId} {key : Key} : Ends own K H (remove fuel (pure ()) token ti key) H :=
  ends_removeLoop trivial

end Protocol
end Yakushima
