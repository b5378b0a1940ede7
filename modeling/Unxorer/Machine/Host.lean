import Unxorer.Machine.Bytes

/-!
# What can go wrong on the host

The plugin allocates buffers whose length the guest chooses, fills sets with what the guest does
and runs loops whose end the guest chooses. A buffer or a set larger than the host can allocate
raises an exception, and a loop whose condition never fails does not end; neither leaves a state
behind.
-/

set_option autoImplicit false

namespace Unxorer

/-- The longest `std::vector<uint8_t>` and the largest `std::unordered_set` the host can allocate.
The distance between the ends of a set is a `std::ptrdiff_t`. -/
class Host where
  vectorMax : ℕ
  setMax : ℕ
  setMax_lt : setMax < 2 ^ 63

/-- The ways in which a host operation does not return. -/
inductive HostFault
  /-- `std::length_error` or `std::bad_alloc`. -/
  | allocation
  | hang
deriving DecidableEq, Repr

/-- The construction of a `std::vector<uint8_t>` of a given length. -/
def hostVector [Host] (length : ℕ) : Except HostFault Unit :=
  if length ≤ Host.vectorMax then .ok () else .error .allocation

/-- The insertions after which a `std::unordered_set` has a given size. -/
def hostSet [Host] (size : ℕ) : Except HostFault Unit :=
  if size ≤ Host.setMax then .ok () else .error .allocation

theorem le_of_hostSet [Host] {size : ℕ} (fits : hostSet size = .ok ()) : size ≤ Host.setMax := by
  by_contra larger
  rw [hostSet, if_neg larger] at fits
  cases fits

/-- A sequence of host operations that returns has returned from its first one. -/
theorem exists_of_bind_ok {α β : Type} {x : Except HostFault α} {f : α → Except HostFault β}
    {b : β} (returned : (x >>= f) = .ok b) : ∃ a, x = .ok a ∧ f a = .ok b := by
  cases x with
  | error fault => cases returned
  | ok a => exact ⟨a, rfl, returned⟩

end Unxorer
