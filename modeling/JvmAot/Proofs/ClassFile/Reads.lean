import JvmAot.Proofs.ClassFile.Offsets

/-! # What a decoder takes

`Reads d bytes a`: the decoder `d` takes exactly `bytes` and yields `a`, whatever follows them. A decoder that
`Delimits` does nothing else: if it ends without having gone beyond the last byte, it `Reads` what it took. The same is
said of readings, which cannot fail, at one position (`Reading.Takes`): padding depends on where it stands. -/

namespace JvmAot

/-! ### Readings -/

namespace Reading
variable {α β : Type} {r : Reading α} {f : α → Reading β} {c : Cursor} {count position : Nat} {bytes : List UInt8}
  {a : α} {b : β}

theorem take_append (h : bytes.length = count) (rest : List UInt8) (position : Nat) :
    take count ⟨bytes ++ rest, position, false⟩ = (bytes, ⟨rest, position + count, false⟩) := by
  simp [take, ← h]

/-- A cursor that is not marked after a read was not marked before, and has taken what the read yields. -/
theorem take_of_open (h : (take count c).2.isExhausted = false) :
    c.isExhausted = false ∧ (take count c).1.length = count ∧ c.rest = (take count c).1 ++ (take count c).2.rest := by
  unfold take at h ⊢
  split at h
  · simp_all
  · dsimp only at h ⊢
    split at h
    · simp_all
    · cases h

/-- From `position` on, the reading takes exactly `bytes` and yields `a`, whatever follows. -/
def Takes (r : Reading α) (position : Nat) (bytes : List UInt8) (a : α) : Prop :=
  ∀ rest, r ⟨bytes ++ rest, position, false⟩ = (a, ⟨rest, position + bytes.length, false⟩)

theorem takes_pure (a : α) : Takes (pure a) position [] a :=
  fun _ => rfl

theorem Takes.bind {bytes' : List UInt8} (hr : Takes r position bytes a)
    (hf : Takes (f a) (position + bytes.length) bytes' b) : Takes (r >>= f) position (bytes ++ bytes') b := by
  intro rest
  rw [List.append_assoc, List.length_append, ← Nat.add_assoc, ← hf rest]
  show f (r _).1 (r _).2 = _
  rw [hr]

theorem Takes.bind_pure {g : α → β} (hr : Takes r position bytes a) (hb : g a = b) :
    Takes (r >>= fun a => pure (g a)) position bytes b := by
  have h : Takes (r >>= fun a => pure (g a)) position (bytes ++ []) (g a) := hr.bind (takes_pure (g a))
  rwa [List.append_nil, hb] at h

theorem takes_take (h : bytes.length = count) : Takes (take count) position bytes bytes := by
  intro rest
  rw [h]
  exact take_append h rest position

theorem takes_number (h : bytes.length = count) :
    Takes (number count) position bytes (Cursor.bigEndian bytes) := by
  intro rest
  rw [h]
  exact congrArg (fun r => (Cursor.bigEndian r.1, r.2)) (take_append h rest position)

theorem takes_u1 (n : UInt8) : Takes u1 position [n] n.toNat := by
  have h : Takes u1 position [n] (Cursor.bigEndian [n]) := takes_number rfl
  rwa [show Cursor.bigEndian [n] = n.toNat by simp [Cursor.bigEndian]] at h

theorem takes_isExhausted : Takes isExhausted position [] false :=
  fun _ => rfl

/-- What the reading does without going beyond the end is to take bytes. -/
def Delimits (r : Reading α) : Prop :=
  ∀ c, (r c).2.isExhausted = false →
    ∃ bytes rest a, c = ⟨bytes ++ rest, c.position, false⟩ ∧ Takes r c.position bytes a

theorem delimits_pure (a : α) : Delimits (pure a) := by
  rintro ⟨rest, position, marked⟩ hopen
  cases hopen
  exact ⟨[], rest, a, rfl, takes_pure a⟩

/-- A reading in two parts that does not go beyond the end takes the bytes of the first part, then those of the
second. -/
theorem Delimits.split (hr : Delimits r) (hf : ∀ a, Delimits (f a))
    (hopen : ((r >>= f) c).2.isExhausted = false) :
    ∃ first second rest a b, c = ⟨first ++ (second ++ rest), c.position, false⟩ ∧ Takes r c.position first a ∧
      Takes (f a) (c.position + first.length) second b := by
  have hopen : (f (r c).1 (r c).2).2.isExhausted = false := hopen
  obtain ⟨second, rest, b, hcursor, hf⟩ := hf _ _ hopen
  obtain ⟨first, rest', a, hc, hr⟩ := hr c (by rw [hcursor])
  have hrun : r c = (a, ⟨rest', c.position + first.length, false⟩) := by
    rw [hc]
    exact hr rest'
  rw [hrun] at hcursor hf
  cases hcursor
  exact ⟨first, second, rest, a, b, hc, hr, hf⟩

theorem Delimits.bind (hr : Delimits r) (hf : ∀ a, Delimits (f a)) : Delimits (r >>= f) := by
  intro c hopen
  obtain ⟨first, second, rest, a, b, hc, hr, hf⟩ := hr.split hf hopen
  exact ⟨first ++ second, rest, b, by rwa [List.append_assoc], hr.bind hf⟩

theorem delimits_take (count : Nat) : Delimits (take count) := by
  rintro ⟨rest, position, marked⟩ hopen
  obtain ⟨rfl, hlength, hrest⟩ := take_of_open hopen
  exact ⟨_, _, _, congrArg (Cursor.mk · position false) hrest, takes_take hlength⟩

theorem delimits_number (count : Nat) : Delimits (number count) := by
  rintro ⟨rest, position, marked⟩ hopen
  obtain ⟨rfl, hlength, hrest⟩ := take_of_open hopen
  exact ⟨_, _, _, congrArg (Cursor.mk · position false) hrest, takes_number hlength⟩

theorem delimits_isExhausted : Delimits isExhausted := by
  rintro ⟨rest, position, marked⟩ hopen
  cases hopen
  exact ⟨[], rest, false, rfl, takes_isExhausted⟩

/-- What a run that does not go beyond the end takes. -/
theorem Delimits.of_run {c' : Cursor} (hr : Delimits r) (h : r c = (a, c')) (hopen : c'.isExhausted = false) :
    ∃ bytes, Takes r c.position bytes a ∧ c = ⟨bytes ++ c'.rest, c.position, false⟩ ∧
      c' = ⟨c'.rest, c.position + bytes.length, false⟩ := by
  obtain ⟨bytes, rest, a', hc, htakes⟩ := hr c (by rw [h]; exact hopen)
  have hrun := htakes rest
  rw [← hc, h] at hrun
  cases hrun
  exact ⟨bytes, htakes, hc, rfl⟩

/-- A reading takes one thing only of what it is given. -/
theorem Takes.unique {bytes' rest : List UInt8} {a' : α} (h : Takes r position bytes a)
    (h' : Takes r position bytes' a') (hbytes : bytes = bytes' ++ rest) : bytes = bytes' ∧ a = a' := by
  have hrun := h []
  rw [List.append_nil, hbytes, h' rest] at hrun
  have hrest : rest = [] := congrArg (fun r => r.2.rest) hrun
  exact ⟨by rw [hbytes, hrest, List.append_nil], (congrArg Prod.fst hrun).symm⟩

theorem takes_bind_iff (hr : Delimits r) (hf : ∀ a, Delimits (f a)) : Takes (r >>= f) position bytes b ↔
    ∃ first a second, bytes = first ++ second ∧ Takes r position first a ∧
      Takes (f a) (position + first.length) second b := by
  constructor
  · intro h
    have hopen : ((r >>= f) ⟨bytes, position, false⟩).2.isExhausted = false := by
      have hrun := h []
      rw [List.append_nil] at hrun
      rw [hrun]
    obtain ⟨first, second, rest, a, b', hc, hr, hf⟩ := hr.split hf hopen
    have hbytes : bytes = first ++ second ++ rest := by
      rw [List.append_assoc]
      exact congrArg Cursor.rest hc
    obtain ⟨rfl, rfl⟩ := h.unique (hr.bind hf) hbytes
    exact ⟨first, a, second, rfl, hr, hf⟩
  · rintro ⟨first, a, second, rfl, hr, hf⟩
    exact hr.bind hf

theorem takes_pure_iff {a' : α} : Takes (pure a) position bytes a' ↔ bytes = [] ∧ a' = a := by
  refine ⟨fun h => ?_, ?_⟩
  · exact h.unique (takes_pure a) (List.nil_append bytes).symm
  · rintro ⟨rfl, rfl⟩
    exact takes_pure a'

/-- What moves on by `count` bytes takes that many. -/
theorem Takes.length_eq (h : Takes r position bytes a)
    (hr : ∀ rest, (r ⟨rest, position, false⟩).2 = (take count ⟨rest, position, false⟩).2) : bytes.length = count := by
  have hrun := congrArg Prod.snd (h [])
  rw [hr, List.append_nil] at hrun
  obtain ⟨-, hlength, hrest⟩ := take_of_open (congrArg Cursor.isExhausted hrun)
  rw [hrun, List.append_nil] at hrest
  rwa [← hrest] at hlength

/-- What moves on by `count` bytes takes any bytes of that number, if it takes them as `g` says. -/
theorem takes_iff_of_count {g : List UInt8 → α}
    (hr : ∀ rest, (r ⟨rest, position, false⟩).2 = (take count ⟨rest, position, false⟩).2)
    (htakes : ∀ {bytes}, bytes.length = count → Takes r position bytes (g bytes)) :
    Takes r position bytes a ↔ bytes.length = count ∧ a = g bytes := by
  refine ⟨fun h => ?_, ?_⟩
  · have hlength := h.length_eq hr
    exact ⟨hlength, (h.unique (htakes hlength) (List.append_nil bytes).symm).2⟩
  · rintro ⟨hlength, rfl⟩
    exact htakes hlength

theorem takes_take_iff {taken : List UInt8} :
    Takes (take count) position bytes taken ↔ bytes.length = count ∧ taken = bytes :=
  takes_iff_of_count (g := fun bytes => bytes) (fun _ => rfl) takes_take

theorem takes_number_iff {n : Nat} :
    Takes (number count) position bytes n ↔ bytes.length = count ∧ n = Cursor.bigEndian bytes :=
  takes_iff_of_count (fun _ => rfl) takes_number

theorem takes_isExhausted_iff {marked : Bool} :
    Takes isExhausted position bytes marked ↔ bytes = [] ∧ marked = false := by
  refine ⟨fun h => ?_, ?_⟩
  · exact h.unique takes_isExhausted (List.nil_append bytes).symm
  · rintro ⟨rfl, rfl⟩
    exact takes_isExhausted

end Reading

/-! ### Decoders -/

namespace Decoder
variable {α β : Type} {d : Decoder α} {f : α → Decoder β} {bytes : List UInt8} {a : α} {b : β}

theorem lift_eq_ok {r : Reading α} {c c' : Cursor} (h : r c = (a, c')) : (liftM r : Decoder α) c = .ok (a, c') :=
  congrArg Except.ok h

theorem bind_eq_of_ok {c c₁ : Cursor} (h : d c = .ok (a, c₁)) : (d >>= f) c = f a c₁ := by
  simp only [bind, StateT.bind, Except.bind, h]

theorem bind_eq_of_error {c : Cursor} {failure : Failure} (h : d c = .error failure) :
    (d >>= f) c = .error failure := by
  simp only [bind, StateT.bind, Except.bind, h]

/-- The decoder takes exactly `bytes` and yields `a`, whatever follows. -/
def Reads (d : Decoder α) (bytes : List UInt8) (a : α) : Prop :=
  ∀ rest position, d ⟨bytes ++ rest, position, false⟩ = .ok (a, ⟨rest, position + bytes.length, false⟩)

theorem reads_pure (a : α) : Reads (pure a) [] a :=
  fun _ _ => rfl

theorem Reads.bind_eq (hd : d.Reads bytes a) (rest : List UInt8) (position : Nat) :
    (d >>= f) ⟨bytes ++ rest, position, false⟩ = f a ⟨rest, position + bytes.length, false⟩ :=
  bind_eq_of_ok (hd rest position)

theorem Reads.bind {bytes' : List UInt8} (hd : d.Reads bytes a) (hf : (f a).Reads bytes' b) :
    (d >>= f).Reads (bytes ++ bytes') b := by
  intro rest position
  rw [List.append_assoc, hd.bind_eq, hf, List.length_append, Nat.add_assoc]

theorem Reads.bind_first (hd : d.Reads [] a) (hf : (f a).Reads bytes b) : (d >>= f).Reads bytes b :=
  hd.bind hf

theorem Reads.bind_last (hd : d.Reads bytes a) (hf : (f a).Reads [] b) : (d >>= f).Reads bytes b := by
  have h := hd.bind hf
  rwa [List.append_nil] at h

theorem Reads.map {g : α → β} (hd : d.Reads bytes a) : (g <$> d).Reads bytes (g a) := by
  rw [map_eq_pure_bind]
  exact hd.bind_last (reads_pure (g a))

theorem reads_lift {r : Reading α} (h : ∀ position, r.Takes position bytes a) : Reads (liftM r) bytes a :=
  fun rest position => lift_eq_ok (h position rest)

theorem reads_take {count : Nat} (h : bytes.length = count) : Reads (liftM (Reading.take count)) bytes bytes :=
  reads_lift fun _ => Reading.takes_take h

theorem reads_number {count : Nat} (h : bytes.length = count) :
    Reads (liftM (Reading.number count)) bytes (Cursor.bigEndian bytes) :=
  reads_lift fun _ => Reading.takes_number h

theorem reads_u1 (byte : UInt8) : Reads (liftM Reading.u1) [byte] byte.toNat :=
  reads_lift fun _ => Reading.takes_u1 byte

theorem reads_checkEnd : Reads checkEnd [] () :=
  fun _ _ => rfl

theorem reads_ofExcept {r : Except Failure α} (h : r = .ok a) : Reads (ofExcept r) [] a := by
  intro rest position
  rw [h]
  rfl

theorem Reads.within (h : d.Reads bytes a) (place : String) : (within place d).Reads bytes a := by
  intro rest position
  rw [Decoder.within, h rest position]
  rfl

/-- One decoder reads at most one of two byte sequences of which one begins the other. -/
theorem Reads.eq_of_prefix {bytes' : List UInt8} {a' : α} (h : d.Reads bytes a) (h' : d.Reads bytes' a')
    (hbegins : bytes' <+: bytes) : bytes' = bytes := by
  obtain ⟨rest, rfl⟩ := hbegins
  have hwhole := h [] 0
  rw [List.append_nil, h' rest 0] at hwhole
  have hrest : rest = [] := congrArg (fun r => r.2.rest) (Except.ok.inj hwhole)
  rw [hrest, List.append_nil]

/-- Whatever the decoder yields without going beyond the end, it reads off the bytes that it took. -/
def Delimits (d : Decoder α) : Prop :=
  ∀ c a c', d c = .ok (a, c') → c'.isExhausted = false →
    c.isExhausted = false ∧ ∃ bytes, c.rest = bytes ++ c'.rest ∧ d.Reads bytes a

theorem delimits_pure (a : α) : Delimits (pure a) := by
  intro c a' c' h hopen
  cases h
  exact ⟨hopen, [], rfl, reads_pure a⟩

theorem Delimits.bind (hd : d.Delimits) (hf : ∀ a, (f a).Delimits) : (d >>= f).Delimits := by
  intro c b c' h hopen
  obtain ⟨a, c₁, ha, hb⟩ := bind_of_ok h
  obtain ⟨hopen₁, bytes', hrest', hreads'⟩ := hf a c₁ b c' hb hopen
  obtain ⟨hopen₀, bytes, hrest, hreads⟩ := hd c a c₁ ha hopen₁
  exact ⟨hopen₀, bytes ++ bytes', by rw [hrest, hrest', List.append_assoc], hreads.bind hreads'⟩

/-- A reading that takes the same bytes wherever they stand. -/
theorem delimits_lift {r : Reading α} (hr : r.Delimits)
    (hplace : ∀ {position bytes a}, r.Takes position bytes a → ∀ position', r.Takes position' bytes a) :
    Delimits (liftM r) := by
  intro c a c' h hopen
  obtain ⟨bytes, htakes, hc, -⟩ := hr.of_run (lift_of_ok h) hopen
  exact ⟨by rw [hc], bytes, congrArg Cursor.rest hc, reads_lift (hplace htakes)⟩

theorem delimits_take (count : Nat) : Delimits (liftM (Reading.take count)) :=
  delimits_lift (Reading.delimits_take count) fun h _ => Reading.takes_take_iff.2 (Reading.takes_take_iff.1 h)

theorem delimits_number (count : Nat) : Delimits (liftM (Reading.number count)) :=
  delimits_lift (Reading.delimits_number count) fun h _ => Reading.takes_number_iff.2 (Reading.takes_number_iff.1 h)

theorem delimits_isExhausted : Delimits (liftM Reading.isExhausted) :=
  delimits_lift Reading.delimits_isExhausted fun h _ =>
    Reading.takes_isExhausted_iff.2 (Reading.takes_isExhausted_iff.1 h)

theorem delimits_fail (cause : Cause) : Delimits (fail cause : Decoder α) := by
  intro c a c' h
  cases h

theorem delimits_ofExcept (r : Except Failure α) : Delimits (ofExcept r) := by
  intro c a c' h hopen
  cases hr : r with
  | error => rw [hr] at h; cases h
  | ok =>
    rw [hr] at h
    cases h
    exact ⟨hopen, [], rfl, reads_ofExcept rfl⟩

theorem Delimits.within (h : d.Delimits) (place : String) : (within place d).Delimits := by
  intro c a c' heq hopen
  obtain ⟨hopen₀, bytes, hrest, hreads⟩ := h c a c' (within_of_ok heq) hopen
  exact ⟨hopen₀, bytes, hrest, hreads.within place⟩

theorem delimits_repeated {count : Nat} {item : Nat → Decoder α} (h : ∀ i, (item i).Delimits) :
    Delimits (repeated count item) := by
  unfold repeated
  generalize List.range count = indices
  induction indices with
  | nil => exact delimits_pure []
  | cons i rest ih =>
    rw [List.mapM_cons]
    exact (h i).bind fun a => ih.bind fun as => delimits_pure (a :: as)

/-! ### Decoders that look for the end themselves -/

/-- As `Delimits`, of a decoder that looks for the end of the bytes after its last read. -/
def Settles (d : Decoder α) : Prop :=
  ∀ c a c', d c = .ok (a, c') → c.isExhausted = false ∧ ∃ bytes, c.rest = bytes ++ c'.rest ∧ d.Reads bytes a

theorem Settles.delimits (h : d.Settles) : d.Delimits :=
  fun c a c' heq _ => h c a c' heq

theorem settles_checkEnd : Settles checkEnd := by
  intro c a c' h
  obtain ⟨rfl, hopen⟩ := checkEnd_of_ok h
  exact ⟨hopen, [], rfl, reads_checkEnd⟩

theorem Delimits.settles_bind (hd : d.Delimits) (hf : ∀ a, (f a).Settles) : (d >>= f).Settles := by
  intro c b c' h
  obtain ⟨a, c₁, ha, hb⟩ := bind_of_ok h
  obtain ⟨hopen₁, bytes', hrest', hreads'⟩ := hf a c₁ b c' hb
  obtain ⟨hopen₀, bytes, hrest, hreads⟩ := hd c a c₁ ha hopen₁
  exact ⟨hopen₀, bytes ++ bytes', by rw [hrest, hrest', List.append_assoc], hreads.bind hreads'⟩

theorem Settles.bind_pure {g : α → β} (hd : d.Settles) : (d >>= fun a => pure (g a)).Settles := by
  intro c b c' h
  obtain ⟨a, c₁, ha, hb⟩ := bind_of_ok h
  cases hb
  obtain ⟨hopen₀, bytes, hrest, hreads⟩ := hd c a c' ha
  exact ⟨hopen₀, bytes ++ [], by rw [List.append_nil, hrest], hreads.bind (reads_pure (g a))⟩

theorem Settles.within (h : d.Settles) (place : String) : (within place d).Settles := by
  intro c a c' heq
  obtain ⟨hopen₀, bytes, hrest, hreads⟩ := h c a c' (within_of_ok heq)
  exact ⟨hopen₀, bytes, hrest, hreads.within place⟩

/-! ### All the bytes of a file -/

theorem Reads.decode (h : d.Reads bytes a) {whole : List UInt8} (hbegins : bytes <+: whole) :
    d.decode whole = .ok a := by
  obtain ⟨rest, rfl⟩ := hbegins
  rw [Decoder.decode, h rest 0]
  rfl

theorem Settles.reads_of_decode (hd : d.Settles) {whole : List UInt8} (h : d.decode whole = .ok a) :
    ∃ bytes, bytes <+: whole ∧ d.Reads bytes a := by
  rw [Decoder.decode] at h
  cases hd₀ : d { rest := whole } with
  | error => rw [hd₀] at h; cases h
  | ok r =>
    rw [hd₀] at h
    cases h
    obtain ⟨-, bytes, hrest, hreads⟩ := hd _ _ _ hd₀
    exact ⟨bytes, ⟨_, hrest.symm⟩, hreads⟩

/-- What ends before the last byte that a decoder reads is refused. -/
theorem Settles.decode_of_cut (hd : d.Settles) (h : d.Reads bytes a) {part : List UInt8} (hbegins : part <+: bytes)
    (hcut : part ≠ bytes) : ∃ failure, d.decode part = .error failure := by
  cases hpart : d.decode part with
  | error failure => exact ⟨failure, rfl⟩
  | ok a' =>
    obtain ⟨bytes', hbegins', hreads'⟩ := hd.reads_of_decode hpart
    have heq := h.eq_of_prefix hreads' (hbegins'.trans hbegins)
    rw [heq] at hbegins'
    exact absurd (hbegins.eq_of_length_le hbegins'.length_le) hcut

end Decoder

end JvmAot
