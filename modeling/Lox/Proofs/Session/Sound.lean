import Lox.Proofs.Run.Sound
import Lox.Proofs.Session.Reachable

namespace Lox.Session

-- Whatever programs did, there is nothing in a session that refers to a scope or a function that
-- does not exist.
theorem Reachable.sound {clock : Nat → Float} {session : Session}
    (h : Reachable clock session) : session.state.Sound := by
  induction h with
  | new => exact Run.sound_initial clock
  | @run session _ fuel source ih =>
    by_cases hsource : Accepted source
    · rw [run_of_accepted hsource]
      exact Run.sound_run ih fuel _
    · rw [run_of_rejected hsource]
      exact ih

end Lox.Session
