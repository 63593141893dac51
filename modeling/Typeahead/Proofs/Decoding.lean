import Mathlib.Data.List.Basic
import Typeahead.Packed.Decoder

/-! # Laws of decoders

A decoder recovers a value from some bytes if it reads the value off them whatever follows, and
lacks bytes as soon as some of them are missing at the end (`Decoder.Recovers`).  Each way to put
decoders together keeps this, so that what holds of numbers and texts holds of everything that is
made of them: a round trip and the detection of what was cut off are one law.

A decoder that reads nested values to a bounded depth gives up where a deeper one goes on.  It
approximates the deeper one (`Decoder.Approximates`), and this, too, every combination keeps. -/

namespace Typeahead
namespace Decoder

variable {α β : Type}

theorem bind_of_ok {d : Decoder α} {f : α → Decoder β} {bytes rest : List UInt8} {a : α}
    (h : d bytes = .ok (a, rest)) : (d >>= f) bytes = f a rest := by
  show (d bytes >>= fun r => f r.1 r.2) = f a rest
  rw [h]
  rfl

theorem bind_of_error {d : Decoder α} {f : α → Decoder β} {bytes : List UInt8} {damage : Damage}
    (h : d bytes = .error damage) : (d >>= f) bytes = .error damage := by
  show (d bytes >>= fun r => f r.1 r.2) = .error damage
  rw [h]
  rfl

theorem value_of_ok {d : Decoder α} {bytes rest : List UInt8} {a : α}
    (h : d bytes = .ok (a, rest)) : d.value bytes = .ok a := by
  show Prod.fst <$> d bytes = .ok a
  rw [h]
  rfl

theorem value_of_error {d : Decoder α} {bytes : List UInt8} {damage : Damage}
    (h : d bytes = .error damage) : d.value bytes = .error damage := by
  show Prod.fst <$> d bytes = .error damage
  rw [h]
  rfl

/-! ### Recovering a value -/

/-- The decoder reads `a` off these bytes, whatever follows them, and lacks bytes if it is given
only what stands in front of some of them. -/
structure Recovers (d : Decoder α) (bytes : List UInt8) (a : α) : Prop where
  whole : ∀ rest, d (bytes ++ rest) = .ok (a, rest)
  cut : ∀ front, front <+: bytes → front ≠ bytes → d front = .error .endOfBytes

theorem recovers_pure (a : α) : Recovers (pure a) [] a := by
  refine ⟨fun _ => rfl, ?_⟩
  intro front h hne
  exact absurd (List.prefix_nil.mp h) hne

/-- One value after another.  Where the bytes of both end too early, those of the first do, or the
first is whole and those of the second do. -/
theorem Recovers.bind {d : Decoder α} {f : α → Decoder β} {xs ys : List UInt8} {a : α} {b : β}
    (hd : Recovers d xs a) (hf : Recovers (f a) ys b) : Recovers (d >>= f) (xs ++ ys) b := by
  refine ⟨?_, ?_⟩
  · intro rest
    rw [List.append_assoc, bind_of_ok (hd.whole (ys ++ rest))]
    exact hf.whole rest
  · intro front hfront hne
    by_cases hxs : xs <+: front
    · obtain ⟨front', rfl⟩ := hxs
      have hfront' : front' <+: ys := (List.prefix_append_right_inj xs).mp hfront
      have hne' : front' ≠ ys := fun h => hne (congrArg (xs ++ ·) h)
      rw [bind_of_ok (hd.whole front')]
      exact hf.cut front' hfront' hne'
    · have hprefix : front <+: xs :=
        (List.prefix_or_prefix_of_prefix hfront (List.prefix_append xs ys)).resolve_right hxs
      have hne' : front ≠ xs := fun h => hxs (h ▸ List.prefix_refl front)
      exact bind_of_error (hd.cut front hprefix hne')

theorem Recovers.bind_nil {d : Decoder α} {f : α → Decoder β} {bytes : List UInt8} {a : α} {b : β}
    (hd : Recovers d bytes a) (hf : Recovers (f a) [] b) : Recovers (d >>= f) bytes b := by
  have hbind := hd.bind hf
  rwa [List.append_nil] at hbind

theorem Recovers.map {d : Decoder α} {bytes : List UInt8} {a : α} (f : α → β)
    (h : Recovers d bytes a) : Recovers (d >>= fun a => pure (f a)) bytes (f a) :=
  h.bind_nil (recovers_pure (f a))

theorem recovers_byte (b : UInt8) : Recovers byte [b] b := by
  refine ⟨fun _ => rfl, ?_⟩
  intro front h hne
  rcases List.prefix_cons_iff.mp h with rfl | ⟨front', rfl, h'⟩
  · rfl
  · exact absurd (congrArg (b :: ·) (List.prefix_nil.mp h')) hne

theorem recovers_take (bytes : List UInt8) : Recovers (take bytes.length) bytes bytes := by
  refine ⟨?_, ?_⟩
  · intro rest
    simp [take]
  · intro front h hne
    have hlt : front.length < bytes.length := by
      refine Nat.lt_of_le_of_ne h.length_le ?_
      intro heq
      exact hne (h.eq_of_length heq)
    unfold take
    rw [if_pos]
    rw [List.length_take]
    omega

/-! ### Recovering several values -/

/-- The bytes of several values in a row, where `item` says which bytes are those of a value. -/
inductive Row (item : α → List UInt8 → Prop) : List α → List UInt8 → Prop
  | nil : Row item [] []
  | cons {a : α} {as : List α} {xs ys : List UInt8} (ha : item a xs) (has : Row item as ys) :
      Row item (a :: as) (xs ++ ys)

/-- The bytes that a function writes. -/
def Writes (write : α → List UInt8) (a : α) (bytes : List UInt8) : Prop := bytes = write a

theorem writes_self (write : α → List UInt8) (a : α) : Writes write a (write a) := rfl

section row

variable {item item' : α → List UInt8 → Prop} {as : List α} {bytes : List UInt8}

theorem Row.imp (h : Row item as bytes)
    (himp : ∀ a xs, item a xs → xs.length ≤ bytes.length → item' a xs) : Row item' as bytes := by
  induction h with
  | nil => exact .nil
  | @cons a as xs ys ha _ ih =>
      rw [List.length_append] at himp
      refine .cons (himp a xs ha (by omega)) (ih ?_)
      intro b zs hb hle
      exact himp b zs hb (by omega)

theorem Row.length_le (h : Row item as bytes) (hne : ∀ a xs, item a xs → xs ≠ []) :
    as.length ≤ bytes.length := by
  induction h with
  | nil => exact Nat.le_refl 0
  | @cons a as xs ys ha _ ih =>
      have hpos := List.length_pos_iff.mpr (hne a xs ha)
      rw [List.length_cons, List.length_append]
      omega

theorem row_flatMap (write : α → List UInt8) (as : List α) :
    Row (Writes write) as (as.flatMap write) := by
  induction as with
  | nil => exact .nil
  | cons a as ih => exact .cons rfl ih

theorem recovers_times {d : Decoder α} (h : Row (fun a xs => Recovers d xs a) as bytes) :
    Recovers (d.times as.length) bytes as := by
  induction h with
  | nil => exact recovers_pure []
  | @cons a as xs ys ha _ ih => exact ha.bind (ih.map (a :: ·))

end row

/-! ### Giving up early -/

/-- The decoder does what another one does, unless it reports that bytes are lacking. -/
def Approximates (d d' : Decoder α) : Prop :=
  ∀ bytes, d bytes = d' bytes ∨ d bytes = .error .endOfBytes

theorem Approximates.refl (d : Decoder α) : Approximates d d := fun _ => .inl rfl

theorem Approximates.bind {d d' : Decoder α} {f f' : α → Decoder β} (hd : Approximates d d')
    (hf : ∀ a, Approximates (f a) (f' a)) : Approximates (d >>= f) (d' >>= f') := by
  intro bytes
  rcases hd bytes with h | h
  · cases hr : d' bytes with
    | error damage =>
        left
        rw [bind_of_error (h.trans hr), bind_of_error hr]
    | ok r =>
        obtain ⟨a, rest⟩ := r
        rw [bind_of_ok (h.trans hr), bind_of_ok hr]
        exact hf a rest
  · exact .inr (bind_of_error h)

theorem Approximates.times {d d' : Decoder α} (h : Approximates d d') :
    ∀ n, Approximates (d.times n) (d'.times n)
  | 0 => .refl _
  | n + 1 => h.bind fun _ => (Approximates.times h n).bind fun _ => .refl _

theorem Approximates.endOfBytes {d d' : Decoder α} (h : Approximates d d') {bytes : List UInt8}
    (hend : d' bytes = .error .endOfBytes) : d bytes = .error .endOfBytes := by
  rcases h bytes with h | h
  · rw [h, hend]
  · exact h

end Decoder
end Typeahead
