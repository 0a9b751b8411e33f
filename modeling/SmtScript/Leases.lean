/-!
Leases: an account of resources that have to be given back.

Each resource that is taken gets a number of its own. The account lists the numbers that are still
out.
-/

namespace SmtScript

structure Leases where
  /-- The number that the next resource gets. -/
  next : Nat
  /-- The resources that are out, newest first. -/
  live : List Nat
  deriving DecidableEq, Repr, Inhabited

namespace Leases

def empty : Leases := ⟨0, []⟩

/-- Takes a resource. -/
def take (leases : Leases) : Nat × Leases :=
  (leases.next, ⟨leases.next + 1, leases.next :: leases.live⟩)

/-- Gives a resource back. -/
def giveBack (leases : Leases) (number : Nat) : Leases :=
  { leases with live := leases.live.filter (· != number) }

end Leases

end SmtScript
