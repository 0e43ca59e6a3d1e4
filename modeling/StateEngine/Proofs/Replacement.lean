import StateEngine.Proofs.Building
import StateEngine.Proofs.Tracing

/-!
# Replacing a state

A machine keeps the state that it is in by its handle, and looks a key up only when it enters the
state that stands under it. So a state that is put in place of the current one is not invoked until
it is entered itself, and whatever enters the key from then on enters the new one.
-/

namespace StateEngine

variable {ρ : Type}

namespace Execution

end Execution

end StateEngine
