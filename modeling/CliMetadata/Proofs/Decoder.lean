import CliMetadata.Bytes
import Mathlib.Algebra.Group.Nat.Defs
import Mathlib.Tactic.Common

/-!
# What decoders take

Three laws are proved of a decoder.  `Takes d front value` says that `d` takes
exactly `front` from whatever bytes start with it, and reads it as `value`: what
was written is read back. `Yields d P` says that `d` takes nothing but a front
of the bytes, and that `P` relates this front to the value that is read: what is
read was there.  `Fails d P` says what `d` fails with where it reads nothing.
All are compositional along the binds of a decoder.
-/

namespace CliMetadata.Decoder

variable {α β : Type}

/-- The decoder reads `front` as `value`, whatever follows, and leaves what
follows. -/
def Takes (d : Decoder α) (front : List UInt8) (value : α) : Prop :=
  ∀ rest, d.run (front ++ rest) = .ok (value, rest)

/-- What the decoder reads is a front of the bytes, and the front and the value
are as told. -/
def Yields (d : Decoder α) (P : List UInt8 → α → Prop) : Prop :=
  ∀ bytes value rest, d.run bytes = .ok (value, rest) →
    ∃ front, bytes = front ++ rest ∧ P front value

/-- What the decoder fails with is as told. -/
def Fails (d : Decoder α) (P : Error → Prop) : Prop :=
  ∀ bytes error, d.run bytes = .error error → P error

/-- Whatever the first decoder reads, the second reads as well. -/
def Refines (d e : Decoder α) : Prop :=
  ∀ bytes result, d.run bytes = .ok result → e.run bytes = .ok result

/-! ### Opening a run -/

theorem run_bind_eq_ok {d : Decoder α} {f : α → Decoder β} {bytes : List UInt8}
    {result : β × List UInt8} :
    (d >>= f).run bytes = .ok result ↔
      ∃ value rest, d.run bytes = .ok (value, rest) ∧
      (f value).run rest = .ok result := by
  rw [StateT.run_bind]
  cases d.run bytes with
  | error e => simp [bind, Except.bind]
  | ok out =>
    refine ⟨fun h => ⟨out.1, out.2, rfl, h⟩, ?_⟩
    rintro ⟨value, rest, hout, h⟩
    cases hout
    exact h

@[simp]
theorem run_byte_eq_ok {bytes rest : List UInt8} {b : UInt8} :
    byte.run bytes = .ok (b, rest) ↔ bytes = b :: rest := by
  cases bytes with
  | nil => exact ⟨nofun, nofun⟩
  | cons c tail =>
    show Except.ok (c, tail) = Except.ok (b, rest) ↔ _
    simp

theorem run'_eq_ok_iff {d : Decoder α} {bytes : List UInt8} {value : α} :
    d.run' bytes = .ok value ↔ ∃ rest, d.run bytes = .ok (value, rest) := by
  change Prod.fst <$> d.run bytes = _ ↔ _
  cases d.run bytes with
  | error => exact ⟨nofun, nofun⟩
  | ok out =>
    refine ⟨fun h => ⟨out.2, ?_⟩, ?_⟩
    · cases h
      rfl
    · rintro ⟨rest, h⟩
      cases h
      rfl

/-! ### Taking what was written -/

namespace Takes

theorem pure (value : α) : Takes (Pure.pure value) [] value := fun _ => rfl

theorem bind {d : Decoder α} {f : α → Decoder β} {front back : List UInt8}
    {a : α} {b : β} (first : Takes d front a) (second : Takes (f a) back b) :
    Takes (d >>= f) (front ++ back) b := by
  intro rest
  rw [run_bind_eq_ok]
  exact ⟨a, back ++ rest, by rw [List.append_assoc]; exact first (back ++
    rest), second rest⟩

/-- A block of the length that is asked for. -/
theorem block (front : List UInt8) :
    Takes (Decoder.block front.length) front front := by
  intro rest
  show (if _ then _ else _) = _
  rw [List.take_left, if_pos rfl, List.drop_left]

/-- The last step of a decoder puts together what was read. -/
theorem map {d : Decoder α} {front : List UInt8} {a : α} (f : α → β)
    (first : Takes d front a) :
    Takes (do return f (← d)) front (f a) := by
  have := first.bind (f := fun a => Pure.pure (f a)) (pure (f a))
  rwa [List.append_nil] at this

theorem byte_bind {f : UInt8 → Decoder β} {b : UInt8} {back : List UInt8}
    {value : β} (second : Takes (f b) back value) :
    Takes (byte >>= f) (b :: back) value := by
  have first : Takes byte [b] b := fun _ => rfl
  exact first.bind second

/-- Bytes that are all taken are read as the value. -/
theorem run' {d : Decoder α} {front : List UInt8} {value : α}
    (h : Takes d front value) :
    d.run' front = .ok value := by
  have whole := h []
  rw [List.append_nil] at whole
  show Prod.fst <$> d.run front = _
  rw [whole]
  rfl

/-- A look ahead takes nothing. -/
theorem peek_bind {f : UInt8 → Decoder β} {b : UInt8} {back : List UInt8}
    {value : β} (second : Takes (f b) (b :: back) value) :
    Takes (peek >>= f) (b :: back) value := by
  intro rest
  rw [run_bind_eq_ok]
  exact ⟨b, b :: (back ++ rest), rfl, second rest⟩

/-- A look ahead at the front of a step takes nothing from the steps behind
it. -/
theorem peek_bind_bind {f : UInt8 → Decoder α} {g : α → Decoder β} {b : UInt8}
    {back : List UInt8} {value : β}
    (second : Takes (f b >>= g) (b :: back) value) :
    Takes (peek >>= f >>= g) (b :: back) value := by
  rw [bind_assoc]
  exact peek_bind second

end Takes

/-! ### What was read was there -/

namespace Yields

theorem pure {P : List UInt8 → α → Prop} {value : α} (h : P [] value) :
    Yields (Pure.pure value) P := by
  rintro bytes _ _ ⟨⟩
  exact ⟨[], rfl, h⟩

theorem throw {P : List UInt8 → α → Prop} (error : Error) :
    Yields (MonadExcept.throw error : Decoder α) P := by
  intro bytes value rest h
  cases h

theorem malformed {P : List UInt8 → α → Prop} (what : Malformation) :
    Yields (Decoder.malformed what) P := throw _

theorem bind {d : Decoder α} {f : α → Decoder β} {P : List UInt8 → α → Prop}
    {Q : List UInt8 → β → Prop} (first : Yields d P)
    (second : ∀ front a, P front a → Yields (f a) fun back b => Q
      (front ++ back) b) :
    Yields (d >>= f) Q := by
  intro bytes value rest h
  obtain ⟨a, middle, ha, hb⟩ := run_bind_eq_ok.mp h
  obtain ⟨front, rfl, hP⟩ := first _ _ _ ha
  obtain ⟨back, rfl, hQ⟩ := second front a hP _ _ _ hb
  exact ⟨front ++ back, (List.append_assoc _ _ _).symm, hQ⟩

theorem mono {d : Decoder α} {P Q : List UInt8 → α → Prop} (first : Yields d P)
    (weaker : ∀ front a, P front a → Q front a) : Yields d Q := by
  intro bytes value rest h
  obtain ⟨front, hbytes, hP⟩ := first _ _ _ h
  exact ⟨front, hbytes, weaker front value hP⟩

/-- The last step of a decoder puts together what was read. -/
theorem map {d : Decoder α} {P : List UInt8 → α → Prop}
    {Q : List UInt8 → β → Prop} {f : α → β} (first : Yields d P)
    (last : ∀ front a, P front a → Q front (f a)) :
    Yields (do return f (← d)) Q := by
  refine first.bind fun front a hP => Yields.pure ?_
  rw [List.append_nil]
  exact last front a hP

theorem ite {c : Prop} [Decidable c] {d e : Decoder α}
    {P : List UInt8 → α → Prop} (first : c → Yields d P)
    (second : ¬ c → Yields e P) : Yields (if c then d else e) P := by
  split
  · next hc => exact first hc
  · next hc => exact second hc

theorem byte : Yields Decoder.byte fun front b => front = [b] := by
  intro bytes value rest h
  exact ⟨[value], run_byte_eq_ok.mp h, rfl⟩

theorem peek : Yields Decoder.peek fun front _ => front = [] := by
  intro bytes value rest h
  cases bytes with
  | nil => cases h
  | cons b tail =>
    cases h
    exact ⟨[], rfl, rfl⟩

theorem atEnd : Yields Decoder.atEnd fun front _ => front = [] := by
  rintro bytes _ _ ⟨⟩
  exact ⟨[], rfl, rfl⟩

theorem remaining : Yields Decoder.remaining fun front _ => front = [] := by
  rintro bytes _ _ ⟨⟩
  exact ⟨[], rfl, rfl⟩

theorem block (count : Nat) :
    Yields (Decoder.block count) fun front value => value = front ∧
      front.length = count := by
  intro bytes value rest h
  change (if _ then _ else _) = _ at h
  split at h
  · next enough =>
    cases h
    exact ⟨bytes.take count, (List.take_append_drop count bytes).symm,
      rfl, enough⟩
  · cases h

/-- A look ahead tells the first byte of what is read next, if anything is. -/
theorem peek_bind {f : UInt8 → Decoder β} {Q : List UInt8 → β → Prop}
    (second : ∀ b, Yields (f b) fun front value =>
      front ≠ [] ∧ (front.head? = some b → Q front value)) :
    Yields (Decoder.peek >>= f) Q := by
  intro bytes value rest h
  obtain ⟨b, middle, hb, hf⟩ := run_bind_eq_ok.mp h
  cases bytes with
  | nil => cases hb
  | cons c tail =>
    cases hb
    obtain ⟨front, hfront, hne, hQ⟩ := second b _ _ _ hf
    refine ⟨front, hfront, hQ ?_⟩
    cases front with
    | nil => exact absurd rfl hne
    | cons d front =>
      rw [List.cons_append, List.cons.injEq] at hfront; rw [hfront.1]; rfl

end Yields

/-! ### Where nothing is read -/

namespace Fails

variable {P : Error → Prop}

theorem pure (value : α) : Fails (Pure.pure value) P := fun _ _ => nofun

theorem throw {error : Error} (h : P error) :
    Fails (MonadExcept.throw error : Decoder α) P := by
  rintro _ _ ⟨⟩
  exact h

theorem bind {d : Decoder α} {f : α → Decoder β} (first : Fails d P)
    (second : ∀ a, Fails (f a) P) :
    Fails (d >>= f) P := by
  intro bytes error h
  rw [StateT.run_bind] at h
  cases hd : d.run bytes with
  | error e =>
    rw [hd] at h
    cases h
    exact first bytes error hd
  | ok out =>
    rw [hd] at h
    exact second out.1 out.2 error h

theorem ite {c : Prop} [Decidable c] {d e : Decoder α} (first : c → Fails d P)
    (second : ¬ c → Fails e P) : Fails (if c then d else e) P := by
  split
  · next hc => exact first hc
  · next hc => exact second hc

theorem remaining : Fails Decoder.remaining P := fun _ _ => nofun

section
variable (bounds : P .outOfBounds)
include bounds

theorem byte : Fails Decoder.byte P := by
  intro bytes error h
  cases bytes with
  | nil =>
    cases h
    exact bounds
  | cons => cases h

theorem peek : Fails Decoder.peek P := by
  intro bytes error h
  cases bytes with
  | nil =>
    cases h
    exact bounds
  | cons => cases h

theorem block (count : Nat) : Fails (Decoder.block count) P := by
  intro bytes error h
  change (if _ then _ else _) = _ at h
  split at h
  · cases h
  · cases h
    exact bounds

end

theorem times {d : Decoder α} (item : Fails d P) (count : Nat) :
    Fails (d.times count) P := by
  induction count with
  | zero => exact pure _
  | succ count ih => exact item.bind fun _ => ih.bind fun _ => pure _

/-- What is left does not matter where nothing is read. -/
theorem of_run' {d : Decoder α} (h : Fails d P) {bytes : List UInt8}
    {error : Error} (failed : d.run' bytes = .error error) : P error := by
  refine h bytes error ?_
  change Prod.fst <$> d.run bytes = _ at failed
  cases hd : d.run bytes with
  | error e =>
    rw [hd] at failed
    cases failed
    rfl
  | ok out =>
    rw [hd] at failed
    cases failed

end Fails

/-! ### Repetition -/

/-- Items that are written one behind the other are read one after the other,
each as what its bytes are read as. -/
theorem Takes.times_map {d : Decoder β} {write : α → List UInt8}
    {read : α → β} :
    (items : List α) → (∀ a ∈ items, Takes d (write a) (read a)) →
      Takes (d.times items.length) (items.flatMap write) (items.map read)
  | [], _ => Takes.pure []
  | a :: items, h => by
    have first := h a List.mem_cons_self
    have others := Takes.times_map items fun b hb => h b
      (List.mem_cons_of_mem a hb)
    exact first.bind (others.map (read a :: ·))

/-- Items that are read as they were written. -/
theorem Takes.times {d : Decoder α} {write : α → List UInt8} (items : List α)
    (h : ∀ a ∈ items, Takes d (write a) a) :
    Takes (d.times items.length) (items.flatMap write) items := by
  have same : Takes (d.times items.length) (items.flatMap write)
      (items.map id) :=
    Takes.times_map items h
  rwa [List.map_id] at same

/-- As many items are read as were asked for, from fronts that lie one behind
the other. -/
theorem Yields.times {d : Decoder α} {P : List UInt8 → α → Prop}
    {Q : List UInt8 → List α → Prop} (item : Yields d P) (none : Q [] [])
    (some : ∀ front a back items, P front a → Q back items →
      Q (front ++ back) (a :: items))
    (count : Nat) :
    Yields (d.times count) fun front items => Q front items ∧
      items.length = count := by
  induction count with
  | zero => exact Yields.pure ⟨none, rfl⟩
  | succ count ih =>
    refine item.bind fun front a hP => ih.bind fun back items hQ =>
      Yields.pure ?_
    rw [List.append_nil]
    exact ⟨some front a back items hP hQ.1, congrArg (· + 1) hQ.2⟩

/-- Where the front does not matter, each of the items is as told. -/
theorem Yields.times_each {d : Decoder α} {P : α → Prop}
    (item : Yields d fun _ a => P a) (count : Nat) :
    Yields (d.times count) fun _ items => (∀ a ∈ items, P a) ∧
      items.length = count := by
  refine Yields.times item ?_ ?_ count
  · exact nofun
  · intro _ a _ items first others
    exact List.forall_mem_cons.mpr ⟨first, others⟩

/-- The value of bytes is as told, even if some are left. -/
theorem Yields.of_run' {d : Decoder α} {P : List UInt8 → α → Prop}
    (h : Yields d P) {bytes : List UInt8} {value : α}
    (read : d.run' bytes = .ok value) : ∃ front, P front value := by
  obtain ⟨rest, run⟩ := run'_eq_ok_iff.mp read
  obtain ⟨front, _, told⟩ := h bytes value rest run
  exact ⟨front, told⟩

/-! ### Decoders that read less -/

namespace Refines

theorem rfl (d : Decoder α) : Refines d d := fun _ _ h => h

theorem bind {d e : Decoder α} {f g : α → Decoder β} (first : Refines d e)
    (second : ∀ a, Refines (f a) (g a)) : Refines (d >>= f) (e >>= g) := by
  intro bytes result h
  obtain ⟨a, rest, ha, hb⟩ := run_bind_eq_ok.mp h
  exact run_bind_eq_ok.mpr ⟨a, rest, first _ _ ha, second a _ _ hb⟩

theorem ite {c : Prop} [Decidable c] {d d' e e' : Decoder α}
    (first : c → Refines d d') (second : ¬ c → Refines e e') :
    Refines (if c then d else e) (if c then d' else e') := by
  split
  · next hc => exact first hc
  · next hc => exact second hc

theorem times {d e : Decoder α} (item : Refines d e) (count : Nat) :
    Refines (d.times count) (e.times count) := by
  induction count with
  | zero => exact rfl _
  | succ count ih => exact item.bind fun a => ih.bind fun _ => rfl _

end Refines

end CliMetadata.Decoder
