import Yakushima.Theorems.Refinement

/-! # What becomes of a displaced value

A session may still read the value that a `put` overwrites or a `remove` unbinds. Such a value is handed to the
garbage container of the session, under its begin epoch; only a `put` of an inline word deletes the block that it
overwrites on the spot, and a block whose header lost its `need_delete_` is left alone by every `put`. -/

namespace Yakushima
open M Permutation

section
variable {s s' : State} {ti : TreeId} {A : Forest} {dead : NodeId → Prop} {key : Key} {token : Token} {v : ValueId}
  {x : Block} {l : List NodeId}

theorem State.created_valueContainer (s : State) (arg : ValueArg) : (s.created arg).valueContainer = s.valueContainer := by
  cases arg <;> rfl

/-- The value that `get` answers is the one the forest binds. -/
theorem Holds.binds_of_get (H : Holds s ti A dead) {p : ValuePtr} {len : Nat}
    (hg : Returns (fun fuel => get fuel (pure ()) ti key) s (.ok, some (p, len)) s) : A.Binds key p := by
  obtain ⟨r, N, hN, hr⟩ := run_get H key
  obtain ⟨rfl, -⟩ := Returns.det (p := fun fuel => get fuel (pure ()) ti key) ⟨N, fun fuel hf => hN (pure ()) fuel hf⟩ hg
  rcases hr with ⟨w, hw, hr⟩ | ⟨-, hr⟩
  · simp only [Prod.mk.injEq, Option.some.injEq, true_and] at hr
    exact hr.1 ▸ hw
  · simp at hr

end

end Yakushima
