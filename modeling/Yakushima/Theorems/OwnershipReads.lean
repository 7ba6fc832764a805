import Yakushima.Theorems.OwnershipKept

/-! # Readers obey the discipline

`get` and `scan` and the searches that the writers share with them. A function is described by the locks that it
leaves its thread, and by the nodes that its answer names, which the thread then knows. -/

namespace Yakushima
namespace Protocol
open M Lib

/-- The thread has the locks `H`, it knows the nodes `K`, and the answer is as `Q` says of the nodes that it knows. -/
def Leaves {α : Type} (own : NodeId → Option Node) (K : Set NodeId) (e : Bool) (H : Multiset (NodeId × Bool))
    (Q : α → Set NodeId → Prop) (a : α) (g : View) : Prop :=
  g.held = H ∧ g.own = own ∧ K ⊆ g.known ∧ (e = true → g.failed = true) ∧ Q a g.known

/-- A thread that knows the nodes `K` and has the locks `H` may run the program; it then has the locks `H'`. -/
def Keeps {α : Type} (own : NodeId → Option Node) (K : Set NodeId) (H : Multiset (NodeId × Bool)) (p : M α)
    (H' : Multiset (NodeId × Bool)) (Q : α → Set NodeId → Prop) : Prop :=
  ∀ e, discipline.Obeys (Leaves own K e H' Q) p ⟨H, own, K, e⟩

/-- The thread knows the node that a pointer leads to. -/
def Knows (p : Ptr) (K : Set NodeId) : Prop := ∀ m, p = some m → m ∈ K

/-- Nothing is said about the answer. -/
def Any {α : Type} (_ : α) (_ : Set NodeId) : Prop := True

variable {α β : Type} {own : NodeId → Option Node} {K K' : Set NodeId} {H H₁ H' : Multiset (NodeId × Bool)}
  {Q : α → Set NodeId → Prop} {R : β → Set NodeId → Prop} {n : NodeId}

theorem knows_none : Knows none K := nofun

theorem knows_some (hn : n ∈ K) : Knows (some n) K := fun _ h => Option.some.inj h ▸ hn

theorem Knows.mono {p : Ptr} (h : Knows p K) (hK : K ⊆ K') : Knows p K' := fun m hm => hK (h m hm)

/-! ### Rules -/

theorem Keeps.ret {a : α} (hQ : Q a K) : Keeps own K H (.ret a) H Q := fun _ => ⟨rfl, rfl, Set.Subset.refl _, id, hQ⟩

theorem Keeps.halt : Keeps own K H .halt H' Q := fun _ => trivial

/-- What follows the program starts with what it leaves. -/
theorem Keeps.followed {p : M α} {f : α → M β} {post : β → View → Prop} {e : Bool} (hp : Keeps own K H p H₁ Q)
    (hf : ∀ a K' e', K ⊆ K' → (e = true → e' = true) → Q a K' → discipline.Obeys post (f a) ⟨H₁, own, K', e'⟩) :
    discipline.Obeys post (p >>= f) ⟨H, own, K, e⟩ := by
  refine Discipline.Obeys.bind (fun a ⟨held, own', K', e'⟩ hg => ?_) (hp e)
  obtain ⟨rfl, rfl, hK, he, ha⟩ := hg
  exact hf a K' e' hK he ha

/-- What the thread knew and had reported before it still knows and has reported afterwards. -/
theorem Keeps.after {p : M α} {e e' : Bool} (hp : Keeps own K' H p H' Q) (hK : K ⊆ K') (he : e = true → e' = true) :
    discipline.Obeys (Leaves own K e H' Q) p ⟨H, own, K', e'⟩ :=
  (hp e').mono fun _ _ ⟨h₁, h₂, h₃, h₄, h₅⟩ => ⟨h₁, h₂, hK.trans h₃, h₄ ∘ he, h₅⟩

theorem Keeps.bind {p : M α} {f : α → M β} (hp : Keeps own K H p H₁ Q)
    (hf : ∀ a K', K ⊆ K' → Q a K' → Keeps own K' H₁ (f a) H' R) :
    Keeps own K H (p >>= f) H' R :=
  fun _ => hp.followed fun a K' _ hK he ha => (hf a K' hK ha).after hK he

theorem Keeps.mono {Q' : α → Set NodeId → Prop} {p : M α} (h : Keeps own K H p H' Q) (hQ : ∀ a K', Q a K' → Q' a K') :
    Keeps own K H p H' Q' :=
  fun e => (h e).mono fun a _ ⟨h₁, h₂, h₃, h₄, h₅⟩ => ⟨h₁, h₂, h₃, h₄, hQ a _ h₅⟩

theorem Keeps.any {p : M α} (h : Keeps own K H p H' Q) : Keeps own K H p H' Any := h.mono fun _ _ _ => trivial

/-- An operation that leaves the own nodes as they are. -/
theorem Keeps.perform {o : Op α} (h : ∀ y e, Impossible o y ⟨H, own, K, e⟩ ∨
    ∃ K' e', Acts o y ⟨H, own, K, e⟩ ⟨H', own, K', e'⟩ ∧ K ⊆ K' ∧ (e = true → e' = true) ∧ Q y K') :
      Keeps own K H (op o) H' Q := by
  intro e y
  rcases h y e with hy | ⟨K', e', ha, hK, he, hQ⟩
  · exact Or.inl hy
  · exact Or.inr ⟨_, ⟨_, _, Or.inl rfl, ha, Or.inl rfl⟩, rfl, rfl, hK, he, hQ⟩

/-- An operation that changes nothing of the view. -/
theorem Keeps.same {o : Op α} (h : ∀ y e, Acts o y ⟨H, own, K, e⟩ ⟨H, own, K, e⟩) : Keeps own K H (op o) H Any :=
  Keeps.perform fun y e => Or.inr ⟨_, _, h y e, Set.Subset.refl _, id, trivial⟩

theorem Keeps.load {f : Field α} (hn : n ∈ K) : Keeps own K H (load n f) H fun y K' => Knows (f.ptr y) K' :=
  Keeps.perform fun _ _ => Or.inr ⟨_, _, Or.inl ⟨hn, rfl⟩, fun _ h => Or.inl h, id, fun _ h => Or.inr h⟩

theorem Keeps.loadRoot {ti : TreeId} : Keeps own K H (op (.loadRoot ti)) H Knows :=
  Keeps.perform fun _ _ => Or.inr ⟨_, _, rfl, fun _ h => Or.inl h, id, fun _ h => Or.inr h⟩

theorem Keeps.logError {e : LogError} : Keeps own K H (logError e) H Any :=
  Keeps.perform fun _ _ => Or.inr ⟨_, _, rfl, Set.Subset.refl _, fun _ => rfl, trivial⟩

theorem Keeps.isBorder (hn : n ∈ K) : Keeps own K H (op (.isBorder n)) H Any := Keeps.same fun _ _ => ⟨Or.inl hn, rfl⟩

theorem Keeps.loadBlock {v : ValueId} : Keeps own K H (op (.loadBlock v)) H Any := Keeps.same fun _ _ => rfl

theorem Keeps.when {c : Prop} [Decidable c] {p : M Unit} (hp : c → Keeps own K H p H Any) :
    Keeps own K H (when c p) H Any := by
  rw [M.when]
  split
  · exact hp ‹c›
  · exact Keeps.ret trivial

theorem Keeps.deref {p : Ptr} (hp : Knows p K) : Keeps own K H (deref p) H fun n K' => n ∈ K' := by
  cases p with
  | none => exact Keeps.halt
  | some n => exact Keeps.ret (hp n rfl)

/-! ### Versions and children -/

theorem keeps_getBody (hn : n ∈ K) : Keeps own K H (getBody n) H Any := (Keeps.load hn).any

/-- A load of the version for one of its parts. -/
theorem keeps_getVersion {f : Version → α} (hn : n ∈ K) : Keeps own K H (do pure (f (← getBody n))) H Any :=
  Keeps.bind (keeps_getBody hn) fun _ _ _ _ => Keeps.ret trivial

theorem keeps_isStale {p : NodeId} {f : Field Ptr} (hn : n ∈ K) (hp : p ∈ K) : Keeps own K H (isStale n p f) H Any := by
  rw [isStale]
  refine Keeps.bind (keeps_getVersion hp) fun deleted K₁ hK₁ _ => ?_
  split
  · exact Keeps.ret trivial
  · exact Keeps.bind (Keeps.load (hK₁ hn)) fun _ _ _ _ => Keeps.ret trivial

theorem keeps_getStableVersion {fuel : Nat} (hn : n ∈ K) : Keeps own K H (getStableVersion n fuel) H Any := by
  induction fuel generalizing K with
  | zero => exact Keeps.halt
  | succ fuel ih =>
    rw [getStableVersion]
    refine Keeps.bind (keeps_getBody hn) fun v K hK _ => ?_
    split
    · exact Keeps.ret trivial
    · exact ih (hK hn)

theorem keeps_searchChild {slice : KeySlice} {length : Nat} {is : List Nat} (hn : n ∈ K) :
    Keeps own K H (searchChild n slice length is) H Knows := by
  induction is generalizing K with
  | nil => exact Keeps.ret knows_none
  | cons i is ih =>
    rw [searchChild]
    refine Keeps.bind (Keeps.load hn) fun pivotLength K hK _ => ?_
    refine Keeps.bind (Keeps.load (hK hn)) fun pivot K' hK' _ => ?_
    split
    · exact Keeps.load (hK' (hK hn))
    · exact ih (hK' (hK hn))

theorem keeps_orLastChild {nKey : Nat} {c : Ptr} (hn : n ∈ K) (hc : Knows c K) :
    Keeps own K H (orLastChild n nKey c) H Knows := by
  cases c with
  | none => exact Keeps.load hn
  | some c => exact Keeps.ret hc

theorem keeps_getChildOf {fuel k : Nat} {slice : KeySlice} {length : Nat} {v : Version} (hn : n ∈ K) :
    Keeps own K H (getChildOf fuel (pure ()) n slice length k v) H fun r K' => Knows r.1 K' := by
  induction k generalizing K v with
  | zero => exact Keeps.halt
  | succ k ih =>
    rw [getChildOf]
    simp only [Prog.pure_eq, Prog.ret_bind]
    refine Keeps.bind (Keeps.load hn) fun nKey K hK _ => ?_
    refine Keeps.bind (keeps_searchChild (hK hn)) fun left K' hK' hleft => ?_
    replace hn := hK' (hK hn)
    refine Keeps.bind (keeps_orLastChild hn hleft) fun ret K hK hret => ?_
    cases ret with
    | none => exact Keeps.ret knows_none
    | some c =>
      refine Keeps.bind (keeps_getStableVersion (hret c rfl)) fun childV K' hK' _ => ?_
      refine Keeps.bind (keeps_getStableVersion (hK' (hK hn))) fun checkV K'' hK'' _ => ?_
      split
      · exact Keeps.ret ((hret.mono hK').mono hK'')
      · split
        · exact Keeps.ret knows_none
        · exact ih (hK'' (hK' (hK hn)))

/-! ### The searches of the writers -/

theorem keeps_searchLv {slice : KeySlice} {length : Nat} {is : List Nat} (hn : n ∈ K) :
    Keeps own K H (searchLv n slice length is) H Any := by
  induction is generalizing K with
  | nil => exact Keeps.ret trivial
  | cons i is ih =>
    rw [searchLv]
    refine Keeps.bind (Keeps.load hn) fun target K hK _ => ?_
    refine Keeps.bind (Keeps.load (hK hn)) fun targetLength K' hK' _ => ?_
    split
    · exact Keeps.ret trivial
    · exact Keeps.ret trivial
    · exact ih (hK' (hK hn))

theorem keeps_getLvOfLoop {fuel k : Nat} {slice : KeySlice} {length : Nat} {v : Version} (hn : n ∈ K) :
    Keeps own K H (getLvOfLoop fuel (pure ()) n slice length k v) H Any := by
  induction k generalizing K v with
  | zero => exact Keeps.halt
  | succ k ih =>
    rw [getLvOfLoop]
    simp only [Prog.pure_eq, Prog.ret_bind]
    refine Keeps.bind (Keeps.load hn) fun body K hK _ => ?_
    refine Keeps.bind (keeps_searchLv (hK hn)) fun pos K' hK' _ => ?_
    replace hn := hK' (hK hn)
    refine Keeps.bind (keeps_getStableVersion hn) fun vCheck K hK _ => ?_
    split
    · exact Keeps.ret trivial
    · exact ih (hK hn)

theorem keeps_getLvOf {fuel : Nat} {slice : KeySlice} {length : Nat} (hn : n ∈ K) :
    Keeps own K H (getLvOf fuel (pure ()) n slice length) H Any :=
  Keeps.bind (keeps_getStableVersion hn) fun _ _ hK _ => keeps_getLvOfLoop (hK hn)

theorem keeps_searchLvWithoutLock {slice : KeySlice} {length : Nat} {found : Option Nat} {is : List Nat} (hn : n ∈ K) :
    Keeps own K H (searchLvWithoutLock n slice length found is) H Any := by
  induction is generalizing K found with
  | nil => exact Keeps.ret trivial
  | cons i is ih =>
    rw [searchLvWithoutLock]
    refine Keeps.bind (Keeps.load hn) fun target K hK _ => ?_
    refine Keeps.bind (Keeps.load (hK hn)) fun targetLength K' hK' _ => ?_
    replace hn := hK' (hK hn)
    split
    · exact ih hn
    · exact Keeps.ret trivial
    · exact ih hn

theorem keeps_getLvOfWithoutLock {slice : KeySlice} {length : Nat} (hn : n ∈ K) :
    Keeps own K H (getLvOfWithoutLock n slice length) H Any :=
  Keeps.bind (Keeps.load hn) fun _ _ hK _ => keeps_searchLvWithoutLock (hK hn)

theorem keeps_getLv {nextLayer : NodeId} (hn : n ∈ K) : Keeps own K H (getLv n nextLayer) H Any := by
  rw [getLv]
  generalize List.range keySliceLength = is
  induction is generalizing K with
  | nil => exact Keeps.bind Keeps.logError fun _ _ _ _ => Keeps.ret trivial
  | cons i is ih =>
    rw [getLvLoop]
    refine Keeps.bind (Keeps.load hn) fun lv K hK _ => ?_
    split
    · exact Keeps.ret trivial
    · exact ih (hK hn)

theorem keeps_computeRankLoop {slice : KeySlice} {length i : Nat} {is : List Nat} (hn : n ∈ K) :
    Keeps own K H (computeRankLoop n slice length i is) H Any := by
  induction is generalizing K i with
  | nil => exact Keeps.ret trivial
  | cons j is ih =>
    have hunexpected : ∀ {K}, Keeps own K H (logError .computeRankUnexpectedPath >>= fun _ => (pure 0 : M Nat)) H Any :=
      Keeps.bind Keeps.logError fun _ _ _ _ => Keeps.ret trivial
    rw [computeRankLoop]
    refine Keeps.bind (Keeps.load hn) fun target K hK _ => ?_
    refine Keeps.bind (Keeps.load (hK hn)) fun targetLength K' hK' _ => ?_
    replace hn := hK' (hK hn)
    split
    · exact hunexpected
    · split
      · split
        · exact hunexpected
        · split
          · exact Keeps.ret trivial
          · exact ih hn
      · exact Keeps.ret trivial
      · exact ih hn

theorem keeps_computeRankIfInsert {slice : KeySlice} {length : Nat} (hn : n ∈ K) :
    Keeps own K H (computeRankIfInsert n slice length) H Any :=
  Keeps.bind (Keeps.load hn) fun _ _ hK _ => keeps_computeRankLoop (hK hn)

theorem keeps_searchPivot {slice : KeySlice} {length : Nat} {is : List Nat} (hn : n ∈ K) :
    Keeps own K H (searchPivot n slice length is) H Any := by
  induction is generalizing K with
  | nil => exact Keeps.ret trivial
  | cons i is ih =>
    rw [searchPivot]
    refine Keeps.bind (Keeps.load hn) fun pivotLength K hK _ => ?_
    refine Keeps.bind (Keeps.load (hK hn)) fun pivot K' hK' _ => ?_
    split
    · exact Keeps.ret trivial
    · exact ih (hK' (hK hn))

theorem keeps_searchChildPtr {child : NodeId} {is : List Nat} (hn : n ∈ K) :
    Keeps own K H (searchChildPtr n child is) H Any := by
  induction is generalizing K with
  | nil => exact Keeps.ret trivial
  | cons i is ih =>
    rw [searchChildPtr]
    refine Keeps.bind (Keeps.load hn) fun c K hK _ => ?_
    split
    · exact Keeps.ret trivial
    · exact ih (hK hn)

theorem keeps_searchKey {slice : KeySlice} {length i : Nat} {is : List Nat} (hn : n ∈ K) :
    Keeps own K H (searchKey n slice length i is) H Any := by
  induction is generalizing K i with
  | nil => exact Keeps.ret trivial
  | cons j is ih =>
    rw [searchKey]
    refine Keeps.bind (Keeps.load hn) fun targetLength K hK _ => ?_
    refine Keeps.bind (Keeps.load (hK hn)) fun target K' hK' _ => ?_
    split
    · exact Keeps.ret trivial
    · exact ih (hK' (hK hn))

theorem keeps_searchLink {child : NodeId} {is : List Nat} (hn : n ∈ K) : Keeps own K H (searchLink n child is) H Any := by
  induction is generalizing K with
  | nil => exact Keeps.ret trivial
  | cons i is ih =>
    rw [searchLink]
    refine Keeps.bind (Keeps.load hn) fun lv K hK _ => ?_
    split
    · exact Keeps.ret trivial
    · exact ih (hK hn)

theorem keeps_needDelete {v : ValuePtr} : Keeps own K H (needDelete v) H Any := by
  cases v with
  | word w => exact Keeps.ret trivial
  | heap v => exact Keeps.bind Keeps.loadBlock fun _ _ _ _ => Keeps.ret trivial

theorem keeps_getLen {v : ValuePtr} : Keeps own K H (getLen v) H Any := by
  cases v with
  | word w => exact Keeps.ret trivial
  | heap v => exact Keeps.bind Keeps.loadBlock fun _ _ _ _ => Keeps.ret trivial

/-! ### `find_border` -/

theorem keeps_toBorder (hn : n ∈ K) : Keeps own K H (toBorder n) H Knows := by
  refine Keeps.bind (Keeps.isBorder hn) fun isBorder K hK _ => ?_
  split
  · exact Keeps.ret (knows_some (hK hn))
  · exact Keeps.ret knows_none

theorem keeps_descend {fuel k : Nat} {slice : KeySlice} {length : Nat} {v : Version} (hn : n ∈ K) :
    Keeps own K H (descend fuel (pure ()) slice length k n v) H fun r K' => ∀ b v, r = some (b, v) → Knows b K' := by
  induction k generalizing K n v with
  | zero => exact Keeps.halt
  | succ k ih =>
    rw [descend]
    split
    · refine Keeps.bind (keeps_toBorder hn) fun b K hK hb => Keeps.ret ?_
      rintro _ _ ⟨⟩
      exact hb
    · refine Keeps.bind (keeps_getChildOf hn) fun ⟨child, v⟩ K hK hchild => ?_
      cases child with
      | none => exact Keeps.ret nofun
      | some c => exact ih (hchild c rfl)

theorem keeps_findBorder {fuel k : Nat} {root : Ptr} {slice : KeySlice} {length : Nat} {special : Status}
    (hroot : Knows root K) :
    Keeps own K H (findBorder fuel (pure ()) root slice length k special) H fun r K' => Knows r.2.1 K' := by
  induction k generalizing K special with
  | zero => exact Keeps.halt
  | succ k ih =>
    rw [findBorder]
    simp only [Prog.pure_eq, Prog.ret_bind]
    refine Keeps.bind (Keeps.when fun _ => Keeps.logError) fun _ K hK _ => ?_
    refine Keeps.bind (Keeps.deref (hroot.mono hK)) fun n K' hK' hn => ?_
    replace hroot := (hroot.mono hK).mono hK'
    refine Keeps.bind (keeps_getStableVersion hn) fun v K hK _ => ?_
    split
    · exact Keeps.ret knows_none
    · split
      · exact Keeps.bind (keeps_toBorder (hK hn)) fun b K hK hb => Keeps.ret hb
      · refine Keeps.bind (keeps_descend (hK hn)) fun r K' hK' hr => ?_
        cases r with
        | none => exact ih ((hroot.mono hK).mono hK')
        | some r => exact Keeps.ret (hr r.1 r.2 rfl)

/-! ### `get` -/

/-- The thread knows the nodes that a label names. -/
def LabelKnown : Label → Set NodeId → Prop
  | .retryFromRoot, _ => True
  | .retryFindBorder root _, K => Knows root K
  | .retryFetchLv b _ _, K => b ∈ K

theorem keeps_getLoop {fuel k : Nat} {ti : TreeId} {key : Key} {label : Label} (hlabel : LabelKnown label K) :
    Keeps own K H (getLoop fuel (pure ()) ti key k label) H Any := by
  induction k generalizing K label with
  | zero => exact Keeps.halt
  | succ k ih =>
    cases label with
    | retryFromRoot =>
      rw [getLoop]
      refine Keeps.bind Keeps.loadRoot fun root K hK hroot => ?_
      split
      · exact Keeps.ret trivial
      · exact ih hroot
    | retryFindBorder root traverseKey =>
      rw [getLoop]
      simp only [Prog.pure_eq, Prog.ret_bind]
      refine Keeps.bind (Keeps.when fun _ => Keeps.logError) fun _ K hK _ => ?_
      refine Keeps.bind (keeps_findBorder (Knows.mono hlabel hK)) fun ⟨special, b, v⟩ K hK hb => ?_
      split
      · exact ih trivial
      · exact Keeps.bind (Keeps.deref hb) fun b K hK hb => ih hb
    | retryFetchLv b vAtFb traverseKey =>
      rw [getLoop]
      simp only [Prog.pure_eq, Prog.ret_bind]
      refine Keeps.bind (keeps_getLvOf hlabel) fun ⟨pos, v⟩ K hK _ => ?_
      replace hlabel : b ∈ K := hK hlabel
      split
      · exact ih trivial
      · cases pos with
        | none => exact Keeps.ret trivial
        | some pos =>
          refine Keeps.bind (Keeps.load hlabel) fun length K hK _ => ?_
          refine Keeps.bind (Keeps.load (hK hlabel)) fun lv K' hK' hlv => ?_
          replace hlabel := hK' (hK hlabel)
          refine Keeps.bind (keeps_getStableVersion hlabel) fun finalCheck K hK _ => ?_
          split
          · exact ih trivial
          · split
            · exact ih (hK hlabel)
            · split
              · exact Keeps.bind keeps_getLen fun _ _ _ _ => Keeps.ret trivial
              · exact ih (Knows.mono hlv hK)

theorem keeps_get {fuel : Nat} {ti : TreeId} {key : Key} : Keeps own K H (get fuel (pure ()) ti key) H Any :=
  keeps_getLoop trivial

/-! ### `scan` -/

/-- The scan of a layer, from a root that the thread knows. -/
def ScansLayer (scanNext : LayerScan) : Prop := ∀ own K H root args out keyPrefix, Knows root K →
  Keeps own K H (scanNext root args out keyPrefix) H Any

theorem keeps_scanCheckRetry {fuel : Nat} {v : Version} (hn : n ∈ K) :
    Keeps own K H (scanCheckRetry fuel (pure ()) n v) H Any := by
  rw [scanCheckRetry]
  simp only [Prog.pure_eq, Prog.ret_bind]
  refine Keeps.bind (keeps_getStableVersion hn) fun check K hK _ => ?_
  split
  · split <;> exact Keeps.ret trivial
  · exact Keeps.ret trivial

theorem keeps_inRange {args : ScanArgs} {v : Version} {fullKey : Key} {vp : ValuePtr} {out : ScanOut} :
    Keeps own K H (inRange args n v fullKey vp out) H Any := by
  refine Keeps.bind keeps_getLen fun len K _ _ => ?_
  dsimp only
  split <;> exact Keeps.ret trivial

theorem keeps_scanEntries {fuel : Nat} {scanNext : LayerScan} {args : ScanArgs} {v : Version} {keyPrefix : Key}
    {slots : List Nat} {out : ScanOut} {pushed : Bool} (hs : ScansLayer scanNext) (hn : n ∈ K) :
    Keeps own K H (scanEntries fuel (pure ()) scanNext args n v keyPrefix slots out pushed) H Any := by
  induction slots generalizing K out pushed with
  | nil => exact Keeps.ret trivial
  | cons index rest ih =>
    rw [scanEntries]
    simp only [Prog.pure_eq, Prog.ret_bind]
    refine Keeps.bind (Keeps.load hn) fun ks K hK _ => ?_
    refine Keeps.bind (Keeps.load (hK hn)) fun kl K' hK' _ => ?_
    replace hn := hK' (hK hn)
    refine Keeps.bind (Keeps.load hn) fun vp K hK _ => ?_
    refine Keeps.bind (Keeps.load (hK hn)) fun nextLayer K' hK' hnext => ?_
    replace hn := hK' (hK hn)
    refine Keeps.bind (keeps_scanCheckRetry hn) fun ⟨check, v'⟩ K hK _ => ?_
    replace hn := hK hn
    replace hnext : Knows nextLayer.getNextLayer K := Knows.mono hnext hK
    split
    · exact Keeps.ret trivial
    · split
      · exact Keeps.ret trivial
      · split
        · split
          · exact ih hn
          · split
            · exact Keeps.ret trivial
            · refine Keeps.bind (hs _ _ _ _ _ _ _ hnext) fun ⟨st, out⟩ K hK _ => ?_
              split
              · exact Keeps.ret trivial
              · exact ih (hK hn)
        · split
          · exact ih hn
          · split
            · refine Keeps.bind keeps_inRange fun ⟨st, out⟩ K hK _ => ?_
              split
              · exact Keeps.ret trivial
              · exact ih (hK hn)
            · exact Keeps.ret trivial

theorem keeps_scanBorder {fuel k : Nat} {scanNext : LayerScan} {args : ScanArgs} {v : Version} {keyPrefix : Key}
    {start : ScanOut} (hs : ScansLayer scanNext) (hn : n ∈ K) :
    Keeps own K H (scanBorder fuel (pure ()) scanNext args n keyPrefix start k v) H fun r K' => r.2.1 ∈ K' := by
  induction k generalizing K v with
  | zero => exact Keeps.halt
  | succ k ih =>
    rw [scanBorder]
    refine Keeps.bind (Keeps.load hn) fun next K hK hnext => ?_
    refine Keeps.bind (Keeps.load (hK hn)) fun body K' hK' _ => ?_
    replace hn := hK' (hK hn)
    replace hnext : Knows next K' := Knows.mono hnext hK'
    refine Keeps.bind (keeps_scanEntries hs hn) fun ended K hK _ => ?_
    replace hn := hK hn
    replace hnext := hnext.mono hK
    cases ended with
    | scanEnd out => exact Keeps.ret hn
    | retryFromRoot => exact Keeps.ret hn
    | retry v => exact ih hn
    | finished out pushed =>
      refine Keeps.bind (?_ : Keeps own K H _ H Any) fun nextVersion K hK _ => ?_
      · cases next with
        | none => exact Keeps.ret trivial
        | some nx => exact keeps_getStableVersion (hnext nx rfl)
      replace hn := hK hn
      replace hnext := hnext.mono hK
      refine Keeps.bind (keeps_scanCheckRetry hn) fun ⟨check, v'⟩ K hK _ => ?_
      replace hn := hK hn
      replace hnext := hnext.mono hK
      dsimp only
      split
      · exact Keeps.ret hn
      · split
        · exact ih hn
        · cases next with
          | none => exact Keeps.ret hn
          | some nx => exact Keeps.ret (hnext nx rfl)

theorem keeps_scanLayerLoop {fuel k : Nat} {scanNext : LayerScan} {args : ScanArgs} {v : Version} {keyPrefix : Key}
    {out : ScanOut} (hs : ScansLayer scanNext) (hn : n ∈ K) :
    Keeps own K H (scanLayerLoop fuel (pure ()) scanNext args keyPrefix k n v out) H Any := by
  induction k generalizing K n v out with
  | zero => exact Keeps.halt
  | succ k ih =>
    rw [scanLayerLoop]
    simp only [Prog.pure_eq, Prog.ret_bind]
    refine Keeps.bind (keeps_scanBorder hs hn) fun ⟨st, bn, v', out'⟩ K hK hbn => ?_
    dsimp only at hbn ⊢
    split
    · exact Keeps.ret trivial
    · exact ih hbn
    · exact Keeps.ret trivial
    · refine Keeps.bind (keeps_getStableVersion hbn) fun re K hK _ => ?_
      split
      · exact Keeps.ret trivial
      · split <;> exact ih (hK hbn)
    · exact ih hbn

theorem keeps_scanLayerRetry {fuel k : Nat} {scanNext : LayerScan} {root : Ptr} {args : ScanArgs} {start : ScanOut}
    {keyPrefix : Key} (hs : ScansLayer scanNext) (hroot : Knows root K) :
    Keeps own K H (scanLayerRetry fuel (pure ()) scanNext root args start keyPrefix k) H Any := by
  induction k generalizing K with
  | zero => exact Keeps.halt
  | succ k ih =>
    rw [scanLayerRetry]
    simp only [Prog.pure_eq, Prog.ret_bind]
    refine Keeps.bind (Keeps.deref hroot) fun n K hK hn => ?_
    refine Keeps.bind (keeps_getBody hn) fun v K' hK' _ => ?_
    replace hroot := (hroot.mono hK).mono hK'
    refine Keeps.bind (keeps_getBody (hK' hn)) fun v' K hK _ => ?_
    replace hroot := hroot.mono hK
    split
    · exact Keeps.ret trivial
    · refine Keeps.bind (keeps_findBorder hroot) fun ⟨special, b, v⟩ K hK hb => ?_
      replace hroot := hroot.mono hK
      split
      · exact Keeps.ret trivial
      · refine Keeps.bind (Keeps.deref hb) fun b K hK hb => ?_
        replace hroot := hroot.mono hK
        refine Keeps.bind (keeps_scanLayerLoop hs hb) fun r K hK _ => ?_
        cases r with
        | some r => exact Keeps.ret trivial
        | none => exact ih (hroot.mono hK)

theorem scansLayer_scanLayer {fuel : Nat} : ∀ k, ScansLayer (scanLayer fuel (pure ()) k)
  | 0 => fun _ _ _ _ _ _ _ _ => Keeps.halt
  | k + 1 => fun _ _ _ _ _ _ _ hroot => keeps_scanLayerRetry (scansLayer_scanLayer k) hroot

theorem keeps_scanLoop {fuel k : Nat} {args : ScanArgs} {v : Version} {out : ScanOut} (hn : n ∈ K) :
    Keeps own K H (scanLoop fuel (pure ()) args k n v out) H Any := by
  induction k generalizing K n v out with
  | zero => exact Keeps.halt
  | succ k ih =>
    rw [scanLoop]
    split
    · exact Keeps.ret trivial
    · refine Keeps.bind (keeps_scanBorder (scansLayer_scanLayer fuel) hn) fun ⟨st, bn, v', out'⟩ K hK hbn => ?_
      dsimp only at hbn ⊢
      split
      · exact Keeps.ret trivial
      · exact ih hbn
      · exact Keeps.ret trivial
      · exact Keeps.bind Keeps.logError fun _ K hK _ => ih (hK hbn)

theorem keeps_scan {fuel : Nat} {ti : TreeId} {args : ScanArgs} {out : ScanOut} :
    Keeps own K H (scan fuel (pure ()) ti args out) H Any := by
  have hretry : ∀ k {K}, Keeps own K H (scanRetry fuel (pure ()) ti args k) H Any := by
    intro k
    induction k with
    | zero => exact Keeps.halt
    | succ k ih =>
      intro K
      rw [scanRetry]
      simp only [Prog.pure_eq, Prog.ret_bind]
      refine Keeps.bind Keeps.loadRoot fun root K hK hroot => ?_
      split
      · exact Keeps.ret trivial
      · refine Keeps.bind (keeps_findBorder hroot) fun ⟨special, b, v⟩ K hK hb => ?_
        split
        · exact ih
        · refine Keeps.bind (Keeps.deref hb) fun b K hK hb => ?_
          refine Keeps.bind (keeps_scanLoop hb) fun r K hK _ => ?_
          cases r with
          | some r => exact Keeps.ret trivial
          | none => exact ih
  rw [scan]
  split
  · exact Keeps.ret trivial
  · exact hretry fuel

end Protocol
end Yakushima
