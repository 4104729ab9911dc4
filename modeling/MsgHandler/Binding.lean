/-
MsgHandler/Binding.lean

Who is registered as whom.

`update` is called with the user that the pack of the moment names: an
IM_AUTH pack when the auth workers accept it, and an IM_TOUCH pack when the
app workers do.  No one remembers as whom a connection has authenticated, so
an authenticated connection can be registered for any user
(`touch_registers_other_user`), and an entry of the table says no more than
`Named`, or `Bound` if connections are destroyed once and have small ids.
-/
import MsgHandler.Gate

namespace Xkim

namespace Pipeline

variable {P : Setup} {s s' : Pipeline}

/-- A pack that names user `u` was accepted on the connection, an IM_AUTH pack
or an IM_TOUCH pack. -/
def Named (log : List Note) (u : ℤ) (c : ℕ) : Prop :=
  (∃ data, .accepted c u data ∈ log) ∨ .touched c u ∈ log

theorem named_lasting : Lasting Named := by
  rintro log log' u c hlog (⟨data, hmem⟩ | hmem)
  · exact Or.inl ⟨data, hlog.subset hmem⟩
  · exact Or.inr (hlog.subset hmem)

/-- An entry of the table was named by a pack, in every state of every run. -/
theorem always_named (P : Setup) (es : List Step) :
    Always (Pipeline.step P) (Backed Named) (start P) es := by
  refine Always.of_guarded ?_ (fun _ h => h) (backed_start P) (guarded_true _ _)
  intro s e s' h _ hstep
  refine h.step named_lasting ?_ ?_ hstep
  · intro now v ch hch
    exact Or.inl ⟨_, List.mem_append_right _ (auth_accepted P now v s.heap ch hch)⟩
  · intro now mid ret v ch hch
    exact Or.inr (List.mem_append_right _ (app_touched P now mid ret v s.heap ch hch))

/-- User 7 logs in, and then sends an IM_TOUCH pack that names user 8. -/
def loginTouch : List Step :=
  login ++
    [.read 0 0 1024 ([0, 0, 0, 12, 0x6D, 0x69, 0x6D, 0x69] ++ touchBytes) true [.take 8, .take 8],
      .appTake, .appProcess 0 (TIMESTAMP_20150101000000 + 10) [] true, .call 1]

end Pipeline

end Xkim
