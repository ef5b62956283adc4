import EditList.Script
import EditList.Proofs.Action

/-!
# The stages of reading and compiling

A text gives actions when its tokens do and the actions pass the checks, and it compiles when the
actions do.
-/

namespace EditList

/-- A text is accepted exactly when its tokens are read and the actions are apart. -/
theorem readActions_eq_ok_iff {text : String} {actions : List Action} :
    readActions text = .ok actions ↔
      Action.ofTokens (tokens text) = .ok actions ∧ checkSpacing actions = .ok () := by
  unfold readActions
  constructor
  · intro h
    obtain ⟨as, hread, h⟩ := bind_eq_ok.1 h
    obtain ⟨⟨⟩, hcheck, h⟩ := bind_eq_ok.1 h
    obtain rfl := Except.ok.inj h
    exact ⟨hread, hcheck⟩
  · rintro ⟨hread, hcheck⟩
    exact bind_eq_ok.2 ⟨actions, hread, bind_eq_ok.2 ⟨(), hcheck, rfl⟩⟩

/-- A text is refused because its tokens cannot be read or, after that, because of its actions. -/
theorem readActions_eq_error_iff {text : String} {fault : Fault} :
    readActions text = .error fault ↔
      Action.ofTokens (tokens text) = .error fault ∨
        ∃ actions, Action.ofTokens (tokens text) = .ok actions ∧
          checkSpacing actions = .error fault := by
  unfold readActions
  rw [bind_eq_error]
  refine or_congr_right (exists_congr fun actions => and_congr_right fun _ => ?_)
  rw [check_bind_eq_error]
  exact or_iff_left fun h => nomatch h.2

/-- What compiles was accepted. -/
theorem compile_eq_ok_iff {text : String} {g : Graph} :
    compile text = .ok g ↔
      ∃ actions, readActions text = .ok actions ∧ Graph.ofActions actions = .ok g :=
  bind_eq_ok

theorem compile_eq_error_iff {text : String} {fault : Fault} :
    compile text = .error fault ↔
      readActions text = .error fault ∨
        ∃ actions, readActions text = .ok actions ∧ Graph.ofActions actions = .error fault :=
  bind_eq_error

end EditList
