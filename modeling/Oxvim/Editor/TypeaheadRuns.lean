import Oxvim.Editor.Typeahead
import Oxvim.Editor.MappingRuns

/-!
# Key boundaries of the typeahead

The queue is a sequence of whole keys whose bytes agree on whether they are mapped: `Framed`. Keys are a
prefix code, so that what is put in or taken out between two keys leaves whole keys.
-/

namespace Oxvim.Editor

open Lib

/-! ## Whole keys -/

/-- The bytes of one key. -/
def IsKey (g : List UInt8) : Prop := ∃ key, decodeOne g = .ok (key, g.length)

/-- Bytes of whole keys. -/
inductive Whole : List UInt8 → Prop where
  | nil : Whole []
  | cons {g rest : List UInt8} : IsKey g → Whole rest → Whole (g ++ rest)

variable {g bs bytes rest : List UInt8} {key : Key} {width : Nat}

/-- A key is at least one byte, and the bytes behind it do not matter. -/
theorem decodeOne_spec (h : decodeOne bytes = .ok (key, width)) :
    0 < width ∧ width ≤ bytes.length ∧
      ∀ rest, decodeOne (bytes.take width ++ rest) = .ok (key, width) := by
  cases bytes with
  | nil => cases h
  | cons first tail =>
    by_cases hplain : first = K_SPECIAL
    · subst hplain
      cases tail with
      | nil => cases h
      | cons second tail =>
        cases tail with
        | nil => cases h
        | cons third others =>
          rw [decodeOne_special] at h
          obtain rfl := decodeSpecial_width h
          refine ⟨by decide, by simp, ?_⟩
          intro rest
          show decodeOne (K_SPECIAL :: second :: third :: rest) = _
          rw [decodeOne_special]
          exact h
    · rw [decodeOne_plain hplain] at h
      cases h
      refine ⟨one_pos, by simp, ?_⟩
      intro rest
      show decodeOne (first :: rest) = _
      exact decodeOne_plain hplain rest

theorem isKey_of_decodeOne (h : decodeOne bytes = .ok (key, width)) : IsKey (bytes.take width) := by
  obtain ⟨-, hle, hprefix⟩ := decodeOne_spec h
  refine ⟨key, ?_⟩
  rw [List.length_take_of_le hle, ← List.append_nil (bytes.take width)]
  exact hprefix []

theorem IsKey.decodeOne_append (h : IsKey g) (rest : List UInt8) :
    ∃ key, decodeOne (g ++ rest) = .ok (key, g.length) := by
  obtain ⟨key, hkey⟩ := h
  obtain ⟨-, -, hprefix⟩ := decodeOne_spec hkey
  rw [List.take_length] at hprefix
  exact ⟨key, hprefix rest⟩

theorem IsKey.pos (h : IsKey g) : 0 < g.length := by
  obtain ⟨key, hkey⟩ := h
  exact (decodeOne_spec hkey).1

theorem Whole.append (h : Whole bs) (h' : Whole rest) : Whole (bs ++ rest) := by
  induction h with
  | nil => exact h'
  | cons hg _ ih =>
    rw [List.append_assoc]
    exact .cons hg ih

/-- Bytes decode when they are whole keys. -/
theorem decodeRounds_iff (rounds : Nat) (hrounds : bytes.length ≤ rounds) :
    (∃ keys, Keys.decodeRounds rounds bytes = .ok keys) ↔ Whole bytes := by
  induction rounds generalizing bytes with
  | zero =>
    obtain rfl := List.eq_nil_of_length_eq_zero (Nat.le_zero.mp hrounds)
    exact iff_of_true ⟨[], rfl⟩ .nil
  | succ rounds ih =>
    rw [Keys.decodeRounds]
    by_cases hempty : bytes.isEmpty = true
    · rw [if_pos hempty, List.isEmpty_iff.mp hempty]
      exact iff_of_true ⟨[], rfl⟩ .nil
    rw [if_neg hempty]
    constructor
    · rintro ⟨keys, h⟩
      obtain ⟨⟨key, width⟩, hone, h⟩ := EState.of_except_bind h
      obtain ⟨others, hrest, -⟩ := EState.of_except_bind h
      obtain ⟨hpos, hle, -⟩ := decodeOne_spec hone
      rw [← List.take_append_drop width bytes]
      refine .cons (isKey_of_decodeOne hone) ((ih ?_).mp ⟨others, hrest⟩)
      rw [List.length_drop]
      omega
    · intro h
      cases h with
      | nil => exact absurd rfl hempty
      | @cons g rest hg hrest =>
        obtain ⟨key, hkey⟩ := hg.decodeOne_append rest
        have hlength : rest.length ≤ rounds := by
          have hpos := hg.pos
          rw [List.length_append] at hrounds
          omega
        obtain ⟨keys, hkeys⟩ := (ih hlength).mpr hrest
        refine ⟨key :: keys, ?_⟩
        rw [hkey]
        show (Keys.decodeRounds rounds ((g ++ rest).drop g.length) >>= _) = _
        rw [List.drop_left, hkeys]
        rfl

theorem decode_iff (keys : Keys) : (∃ decoded, keys.decode = .ok decoded) ↔ Whole keys.bytes :=
  decodeRounds_iff _ le_rfl

theorem validateRounds_ok (rounds offset : Nat) (h : Whole bytes) :
    Keys.validateRounds rounds offset bytes = .ok () := by
  induction rounds generalizing bytes offset with
  | zero => rfl
  | succ rounds ih =>
    cases h with
    | nil => rfl
    | @cons g rest hg hrest =>
      obtain ⟨key, hkey⟩ := hg.decodeOne_append rest
      have hne : (g ++ rest).isEmpty = false := by
        rw [List.isEmpty_eq_false_iff]
        exact fun hnil => absurd (congrArg List.length (List.append_eq_nil_iff.mp hnil).1) hg.pos.ne'
      rw [Keys.validateRounds, hne, if_neg Bool.false_ne_true, hkey]
      show Keys.validateRounds rounds _ ((g ++ rest).drop g.length) = _
      rw [List.drop_left]
      exact ih _ hrest

/-! ## Frames -/

/-- Bytes and flags of whole keys, the bytes of one key agreeing on whether they are mapped. -/
inductive Framed : List UInt8 → List TypeaheadFlags → Prop where
  | nil : Framed [] []
  | cons {g bs : List UInt8} {fl fs : List TypeaheadFlags} {mapped : Bool} : IsKey g →
      fl.length = g.length → (∀ flags ∈ fl, flags.mapped = mapped) → Framed bs fs →
      Framed (g ++ bs) (fl ++ fs)

namespace Framed

variable {fs fs' : List TypeaheadFlags}

theorem whole (h : Framed bytes fs) : Whole bytes := by
  induction h with
  | nil => exact .nil
  | cons hg _ _ _ ih => exact .cons hg ih

theorem lengths (h : Framed bytes fs) : fs.length = bytes.length := by
  induction h with
  | nil => rfl
  | cons _ hlength _ _ ih => rw [List.length_append, List.length_append, hlength, ih]

theorem append (h : Framed bytes fs) (h' : Framed rest fs') : Framed (bytes ++ rest) (fs ++ fs') := by
  induction h with
  | nil => exact h'
  | cons hg hlength hmapped _ ih =>
    rw [List.append_assoc, List.append_assoc]
    exact .cons hg hlength hmapped ih

/-- Whole keys with the same flags for each byte are framed. -/
theorem replicate (h : Whole bytes) (flags : TypeaheadFlags) :
    Framed bytes (List.replicate bytes.length flags) := by
  induction h with
  | nil => exact .nil
  | cons hg _ ih =>
    rw [List.length_append, ← List.replicate_append_replicate]
    refine @Framed.cons _ _ _ _ flags.mapped hg List.length_replicate ?_ ih
    intro fl hfl
    rw [List.eq_of_mem_replicate hfl]

/-- What is framed can be cut where whole keys end. -/
theorem cut (h : Framed bytes fs) (n : Nat) (hwhole : Whole (bytes.take n)) :
    Framed (bytes.take n) (fs.take n) ∧ Framed (bytes.drop n) (fs.drop n) := by
  induction h generalizing n with
  | nil =>
    rw [List.take_nil, List.take_nil, List.drop_nil, List.drop_nil]
    exact ⟨.nil, .nil⟩
  | @cons g bs fl fs mapped hg hlength hmapped hrest ih =>
    by_cases hzero : n = 0
    · subst hzero
      exact ⟨.nil, .cons hg hlength hmapped hrest⟩
    generalize hbegin : (g ++ bs).take n = begin at hwhole
    cases hwhole with
    | nil =>
      have hlen := congrArg List.length hbegin
      have hpos := hg.pos
      rw [List.length_take, List.length_append, List.length_nil] at hlen
      omega
    | @cons g' begin hg' hbegins =>
      -- keys are a prefix code, so that both begin with the same one
      have hsplit : g' ++ (begin ++ (g ++ bs).drop n) = g ++ bs := by
        rw [← List.append_assoc, ← hbegin, List.take_append_drop]
      obtain ⟨key, hkey⟩ := hg.decodeOne_append bs
      obtain ⟨key', hkey'⟩ := hg'.decodeOne_append (begin ++ (g ++ bs).drop n)
      rw [hsplit, hkey] at hkey'
      have hwidth : g.length = g'.length := by
        injection hkey' with hpair
        exact congrArg Prod.snd hpair
      obtain ⟨rfl, htail⟩ := List.append_inj hsplit hwidth.symm
      obtain ⟨k, rfl⟩ : ∃ k, n = g'.length + k := by
        have hlen := congrArg List.length hbegin
        rw [List.length_take, List.length_append, List.length_append] at hlen
        exact ⟨n - g'.length, by omega⟩
      rw [List.take_length_add_append] at hbegin
      obtain rfl := List.append_cancel_left hbegin
      obtain ⟨hfront, hback⟩ := ih k hbegins
      rw [List.drop_length_add_append, ← hlength, List.take_length_add_append, List.drop_length_add_append]
      exact ⟨.cons hg' hlength hmapped hfront, hback⟩

/-- The mapped run at the front ends between two keys. -/
theorem mappedRun (h : Framed bytes fs) :
    Framed (bytes.drop (fs.takeWhile (·.mapped)).length) (fs.drop (fs.takeWhile (·.mapped)).length) := by
  induction h with
  | nil => exact .nil
  | @cons g bs fl fs mapped hg hlength hmapped hrest ih =>
    cases mapped with
    | true =>
      rw [List.takeWhile_append_of_pos hmapped, List.length_append, List.drop_length_add_append, hlength,
        List.drop_length_add_append]
      exact ih
    | false =>
      have hnone : ((fl ++ fs).takeWhile (·.mapped)).length = 0 := by
        cases fl with
        | nil => exact absurd hlength hg.pos.ne
        | cons f fl =>
          rw [List.cons_append, List.takeWhile_cons_of_neg]
          · rfl
          · rw [hmapped f List.mem_cons_self]
            exact Bool.false_ne_true
      rw [hnone]
      exact .cons hg hlength hmapped hrest

/-- Another remapping policy at the front does not matter. -/
theorem modifyHead (h : Framed bytes fs) {edit : TypeaheadFlags → TypeaheadFlags}
    (hedit : ∀ flags, (edit flags).mapped = flags.mapped) : Framed bytes (fs.modifyHead edit) := by
  cases h with
  | nil => exact .nil
  | @cons g bs fl fs mapped hg hlength hmapped hrest =>
    cases fl with
    | nil => exact absurd hlength hg.pos.ne
    | cons f fl =>
      show Framed (g ++ bs) ((edit f :: fl) ++ fs)
      refine @Framed.cons _ _ _ _ mapped hg hlength ?_ hrest
      intro flags hflags
      rcases List.mem_cons.mp hflags with rfl | hflags
      · rw [hedit]
        exact hmapped f List.mem_cons_self
      · exact hmapped flags (List.mem_cons_of_mem _ hflags)

end Framed

/-! ## The operations -/

namespace Typeahead

variable {t t' : Typeahead} {keys : Keys} {flags : TypeaheadFlags} {n : Nat}

theorem push_framed (h : Framed t.bytes t.flags) (hkeys : Whole keys.bytes) {offset : Nat}
    (hoffset : Whole (t.bytes.take offset)) (hpush : t.push keys offset flags = .ok t') :
    Framed t'.bytes t'.flags := by
  rw [push] at hpush
  split at hpush
  · cases hpush
  · cases hpush
    obtain ⟨hfront, hback⟩ := h.cut offset hoffset
    exact (hfront.append (.replicate hkeys flags)).append hback

theorem append_framed (h : Framed t.bytes t.flags) (hkeys : Whole keys.bytes) (flags : TypeaheadFlags) :
    Framed (t.append keys flags).bytes (t.append keys flags).flags :=
  h.append (.replicate hkeys flags)

/-- The event key and the keys after it are whole again. -/
theorem lowLevel_ok (hkeys : Whole keys.bytes) (mode : List Char) :
    ∃ fed, lowLevel keys mode = .ok fed ∧ Whole fed.bytes := by
  rw [lowLevel]
  split
  · have hwhole : Whole ([K_SPECIAL, KS_EXTRA, KE_EVENT] ++ keys.bytes) :=
      .cons ⟨.special KS_EXTRA KE_EVENT, rfl⟩ hkeys
    refine ⟨⟨[K_SPECIAL, KS_EXTRA, KE_EVENT] ++ keys.bytes⟩, ?_, hwhole⟩
    show ((Keys.fromEncoded ([K_SPECIAL, KS_EXTRA, KE_EVENT] ++ keys.bytes)).mapError TypeaheadError.decode) = _
    rw [Keys.fromEncoded, Keys.validateEncoded, validateRounds_ok _ _ hwhole]
    rfl
  · exact ⟨keys, rfl, hkeys⟩

theorem feedkeys_framed (h : Framed t.bytes t.flags) (hkeys : Whole keys.bytes) {mode : List Char}
    {now : Bool} (hfeed : t.feedkeys keys mode = .ok (t', now)) : Framed t'.bytes t'.flags := by
  obtain ⟨fed, hfed, hwhole⟩ := lowLevel_ok hkeys mode
  rw [feedkeys] at hfeed
  obtain ⟨fed', hfed', hfeed⟩ := EState.of_except_bind hfeed
  obtain rfl : fed = fed' := by
    rw [hfed] at hfed'
    injection hfed'
  obtain ⟨queued, hqueued, hfeed⟩ := EState.of_except_bind hfeed
  cases hfeed
  split at hqueued
  · exact push_framed h hwhole (List.take_zero ▸ .nil) hqueued
  · cases hqueued
    exact append_framed h hwhole _

theorem denyFrontRemap_eq (t : Typeahead) : t.denyFrontRemap =
    ⟨t.bytes, t.flags.modifyHead fun flags => { flags with remap := .no }⟩ := by
  obtain ⟨bytes, flags⟩ := t
  cases flags <;> rfl

theorem denyFrontRemap_framed (h : Framed t.bytes t.flags) :
    Framed t.denyFrontRemap.bytes t.denyFrontRemap.flags := by
  rw [denyFrontRemap_eq]
  exact h.modifyHead fun _ => rfl

theorem flushMapped_framed (h : Framed t.bytes t.flags) :
    Framed t.flushMapped.bytes t.flushMapped.flags :=
  h.mappedRun

theorem consume_framed (h : Framed t.bytes t.flags) (hn : Whole (t.bytes.take n)) :
    Framed (t.consume n).1.bytes (t.consume n).1.flags := by
  refine (h.cut (min n t.bytes.length) ?_).2
  rw [← List.take_eq_take_min]
  exact hn

theorem decodeOne_whole (h : decodeOne bytes = .ok (key, width)) : Whole (bytes.take width) := by
  rw [← List.append_nil (bytes.take width)]
  exact .cons (isKey_of_decodeOne h) .nil

theorem pop_framed (h : Framed t.bytes t.flags) {popped : Option Key} (hpop : t.pop = .ok (t', popped)) :
    Framed t'.bytes t'.flags := by
  rw [pop] at hpop
  split at hpop
  · cases hpop
    exact h
  · obtain ⟨⟨key, width⟩, hone, hpop⟩ := EState.of_except_bind hpop
    cases hpop
    exact (h.cut width (decodeOne_whole hone)).2

/-! ### How much is consumed -/

/-- One more key behind whole keys. -/
theorem take_add_whole {queue : List UInt8} {m : Nat} (h : Whole (queue.take m))
    (hone : decodeOne (queue.drop m) = .ok (key, width)) : Whole (queue.take (m + width)) := by
  rw [List.take_add]
  exact h.append (decodeOne_whole hone)

theorem continueCharacter_whole {queue : List UInt8} (more : Nat) {read complete : List UInt8} {m : Nat}
    (h : Whole (queue.take m))
    (hcontinue : continueCharacter queue more read m = .ok (.complete complete n)) :
    Whole (queue.take n) := by
  induction more generalizing read m with
  | zero =>
    cases hcontinue
    exact h
  | succ more ih =>
    rw [continueCharacter] at hcontinue
    split at hcontinue
    · cases hcontinue
    obtain ⟨⟨key, width⟩, hone, hcontinue⟩ := EState.of_except_bind hcontinue
    cases key with
    | special second third => cases hcontinue
    | byte continuation =>
      dsimp only at hcontinue
      split at hcontinue
      · exact ih (take_add_whole h hone) hcontinue
      · cases hcontinue

/-- The bytes of a character are whole keys. -/
theorem peekCharacter_whole {c : Char} (hpeek : t.peekCharacter = .ok (some (c, n))) :
    Whole (t.bytes.take n) := by
  rw [peekCharacter] at hpeek
  split at hpeek
  · cases hpeek
  obtain ⟨⟨key, width⟩, hone, hpeek⟩ := EState.of_except_bind hpeek
  have hfirst := decodeOne_whole hone
  cases key with
  | special second third => cases hpeek
  | byte first =>
    dsimp only at hpeek
    rw [characterFrom] at hpeek
    split at hpeek
    · cases hpeek
      exact hfirst
    · next more hmore =>
      obtain ⟨continued, hcontinued, hpeek⟩ := EState.of_except_bind hpeek
      cases continued with
      | incomplete => cases hpeek
      | broken =>
        cases hpeek
        exact hfirst
      | complete bytes encodedLen =>
        dsimp only at hpeek
        cases htext : Utf8.decode? bytes with
        | some text =>
          rw [htext] at hpeek
          injection hpeek with hpeek
          obtain ⟨c', -, hpair⟩ := Option.map_eq_some_iff.mp hpeek
          cases hpair
          exact continueCharacter_whole more hfirst hcontinued
        | none =>
          rw [htext] at hpeek
          cases hpeek
          exact hfirst

/-- A complete mapping is a prefix of the queue. -/
theorem lookup_exact {α : Type} {mappings : Mappings α} {input : List UInt8} {mode : MapMode}
    {buffer : Option BufHandle} {m : Mapping α}
    (hexact : mappings.lookup input mode buffer = .exact m n) :
    m ∈ mappings.entries ∧ m.lhs.bytes = input.take n := by
  have hscope : ∀ scope, mappings.lookupScope input mode scope = .exact m n →
      m ∈ mappings.entries ∧ m.lhs.bytes = input.take n := by
    intro scope h
    rw [Mappings.lookupScope] at h
    split at h
    · cases h
    split at h
    · next found hfound =>
      cases h
      obtain ⟨hmem, hfront, -⟩ := (Mappings.considered input _).some m hfound
      exact ⟨(List.mem_filter.mp hmem).1, List.prefix_iff_eq_take.mp hfront⟩
    · cases h
  cases buffer with
  | none => exact hscope _ hexact
  | some b =>
    rw [Mappings.lookup.eq_def] at hexact
    dsimp only at hexact
    split at hexact
    · exact hscope _ hexact
    · exact hscope _ hexact

/-! ## Runs -/

/-- One operation on the queue. -/
inductive Op (α : Type) where
  | push (keys : Keys) (offset : Nat) (flags : TypeaheadFlags)
  | append (keys : Keys) (flags : TypeaheadFlags)
  | feedkeys (keys : Keys) (mode : List Char)
  | pop
  | denyFrontRemap
  | flushMapped
  /-- consumes the character at the front -/
  | consumeCharacter
  /-- consumes the complete mapping at the front -/
  | consumeMapping (mappings : Mappings α) (mode : MapMode) (buffer : Option BufHandle)

namespace Op

variable {α : Type}

/-- The queue after an operation; an operation that fails leaves it as it was. -/
def step (t : Typeahead) : Op α → Typeahead
  | push keys offset flags =>
    match t.push keys offset flags with
    | .ok t' => t'
    | .error _ => t
  | append keys flags => t.append keys flags
  | feedkeys keys mode =>
    match t.feedkeys keys mode with
    | .ok (t', _) => t'
    | .error _ => t
  | pop =>
    match t.pop with
    | .ok (t', _) => t'
    | .error _ => t
  | denyFrontRemap => t.denyFrontRemap
  | flushMapped => t.flushMapped
  | consumeCharacter =>
    match t.peekCharacter with
    | .ok (some (_, n)) => (t.consume n).1
    | _ => t
  | consumeMapping mappings mode buffer =>
    match mappings.lookup t.bytes mode buffer with
    | .exact _ n => (t.consume n).1
    | _ => t

/-- Keys and left-hand sides decode, and keys are pushed between keys. -/
def Allowed (t : Typeahead) : Op α → Prop
  | push keys offset _ =>
    (∃ decoded, keys.decode = .ok decoded) ∧ ∃ decoded, (Keys.mk (t.bytes.take offset)).decode = .ok decoded
  | append keys _ => ∃ decoded, keys.decode = .ok decoded
  | feedkeys keys _ => ∃ decoded, keys.decode = .ok decoded
  | consumeMapping mappings _ _ => ∀ m ∈ mappings.entries, ∃ decoded, m.lhs.decode = .ok decoded
  | pop | denyFrontRemap | flushMapped | consumeCharacter => True

theorem step_framed (h : Framed t.bytes t.flags) (op : Op α) (hop : op.Allowed t) :
    Framed (op.step t).bytes (op.step t).flags := by
  cases op with
  | push keys offset flags =>
    rw [step]
    split
    · next hpush =>
      exact push_framed h ((decode_iff keys).mp hop.1) ((decode_iff _).mp hop.2) hpush
    · exact h
  | append keys flags => exact append_framed h ((decode_iff keys).mp hop) flags
  | feedkeys keys mode =>
    rw [step]
    split
    · next hfeed => exact feedkeys_framed h ((decode_iff keys).mp hop) hfeed
    · exact h
  | pop =>
    rw [step]
    split
    · next hpop => exact pop_framed h hpop
    · exact h
  | denyFrontRemap => exact denyFrontRemap_framed h
  | flushMapped => exact flushMapped_framed h
  | consumeCharacter =>
    rw [step]
    split
    · next hpeek => exact consume_framed h (peekCharacter_whole hpeek)
    · exact h
  | consumeMapping mappings mode buffer =>
    rw [step]
    split
    · next m n hexact =>
      obtain ⟨hmem, hfront⟩ := lookup_exact hexact
      exact consume_framed h (hfront ▸ (decode_iff _).mp (hop m hmem))
    · exact h

/-- The queue after a sequence of operations. -/
def run (ops : List (Op α)) (t : Typeahead) : Typeahead := ops.foldl step t

/-- Every operation of the sequence is allowed where it happens. -/
def AllAllowed : List (Op α) → Typeahead → Prop
  | [], _ => True
  | op :: ops, t => op.Allowed t ∧ AllAllowed ops (op.step t)

theorem run_framed (ops : List (Op α)) (h : Framed t.bytes t.flags) (hops : AllAllowed ops t) :
    Framed (run ops t).bytes (run ops t).flags := by
  induction ops generalizing t with
  | nil => exact h
  | cons op ops ih => exact ih (step_framed h op hops.1) hops.2

end Op

/-! ## Text -/

/-- Reads characters until none is complete. -/
def readCharacters : Nat → Typeahead → Except KeyDecodeError (List Char × Typeahead)
  | 0, t => .ok ([], t)
  | rounds + 1, t => do
    match ← t.peekCharacter with
    | none => return ([], t)
    | some (c, n) =>
      let (cs, t) ← readCharacters rounds (t.consume n).1
      return (c :: cs, t)

/-- Appends encoded pieces of raw input. -/
def appendPieces (t : Typeahead) (pieces : List (List UInt8 × TypeaheadFlags)) : Typeahead :=
  pieces.foldl (fun t piece => t.append (.encode piece.1) piece.2) t

theorem quote_pos (b : UInt8) : 0 < (Keys.quote b).length := by
  rw [Keys.quote]
  split
  · decide
  split
  · decide
  · exact one_pos

theorem quote_append_ne (b : UInt8) (rest : List UInt8) : ¬(Keys.quote b ++ rest).isEmpty = true := by
  intro hempty
  have hpos := quote_pos b
  rw [(List.append_eq_nil_iff.mp (List.isEmpty_iff.mp hempty)).1] at hpos
  cases hpos

theorem decodeOne_quote (b : UInt8) (rest : List UInt8) :
    decodeOne (Keys.quote b ++ rest) = .ok (.byte b, (Keys.quote b).length) := by
  rw [Keys.quote]
  split
  · next hzero =>
    subst hzero
    exact decodeOne_special KS_ZERO KE_FILLER rest
  split
  · next hspecial =>
    subst hspecial
    exact decodeOne_special KS_SPECIAL KE_FILLER rest
  · next hspecial => exact decodeOne_plain hspecial rest

theorem continueCharacter_quoted (tail : List UInt8) (htail : ∀ b ∈ tail, Utf8.IsContinuation b)
    (read front rest : List UInt8) :
    continueCharacter (front ++ (tail.flatMap Keys.quote ++ rest)) tail.length read front.length =
      .ok (.complete (read ++ tail) (front.length + (tail.flatMap Keys.quote).length)) := by
  induction tail generalizing read front with
  | nil =>
    rw [List.append_nil]
    rfl
  | cons b tail ih =>
    have hb := htail b List.mem_cons_self
    have hlong : front.length ≠ (front ++ ((b :: tail).flatMap Keys.quote ++ rest)).length := by
      have hpos := quote_pos b
      rw [List.flatMap_cons, List.length_append, List.length_append, List.length_append]
      omega
    rw [List.length_cons, continueCharacter, if_neg hlong, List.drop_left, List.flatMap_cons,
      List.append_assoc, decodeOne_quote]
    show (if 0x80 ≤ b ∧ b ≤ 0xbf then _ else _) = _
    rw [if_pos (show 0x80 ≤ b ∧ b ≤ 0xbf from hb), ← List.append_assoc front, ← List.length_append,
      ih fun b' hb' => htail b' (List.mem_cons_of_mem _ hb')]
    rw [List.append_assoc read, List.length_append, List.length_append, Nat.add_assoc]
    rfl

/-- The character at the front is read with all its bytes. -/
theorem peekCharacter_quoted (c : Char) (rest : List UInt8) (fs : List TypeaheadFlags) :
    peekCharacter ⟨(String.utf8EncodeChar c).flatMap Keys.quote ++ rest, fs⟩ =
      .ok (some (c, ((String.utf8EncodeChar c).flatMap Keys.quote).length)) := by
  rcases Utf8.utf8EncodeChar_cases c with ⟨hascii, hbytes⟩ | ⟨lead, tail, hbytes, hfollowers, htail⟩
  · have hnone : Utf8.followers (UInt8.ofNat c.toNat) = none := Utf8.followers_ascii hascii
    have hchar : Char.ofNat (UInt8.ofNat c.toNat).toNat = c := by
      rw [UInt8.toNat_ofNat', Nat.mod_eq_of_lt (by omega)]
      exact Char.ofNat_toNat c
    rw [hbytes, List.flatMap_singleton, peekCharacter, if_neg (quote_append_ne _ _), decodeOne_quote]
    show characterFrom _ (UInt8.ofNat c.toNat) _ = _
    rw [characterFrom, hnone, hchar]
    rfl
  · have hdecode : Utf8.decode? (lead :: tail) = some [c] := by
      rw [← hbytes, ← Utf8.decode?_encode [c], Utf8.encode_cons, Utf8.encode_nil, List.append_nil]
    rw [hbytes, List.flatMap_cons, List.append_assoc, peekCharacter, if_neg (quote_append_ne _ _),
      decodeOne_quote]
    show characterFrom _ lead _ = _
    rw [characterFrom, hfollowers]
    show (continueCharacter _ tail.length [lead] _ >>= _) = _
    rw [continueCharacter_quoted tail htail [lead], List.length_append]
    show Except.ok ((Utf8.decode? (lead :: tail)).elim _ _) = _
    rw [hdecode]
    rfl

theorem consume_front (front rest : List UInt8) (fs : List TypeaheadFlags) :
    (consume ⟨front ++ rest, fs⟩ front.length).1 = ⟨rest, fs.drop front.length⟩ := by
  rw [consume, List.length_append, Nat.min_eq_left (Nat.le_add_right _ _), List.drop_left]

theorem readCharacters_quoted (cs : List Char) (rounds : Nat) (hrounds : cs.length ≤ rounds)
    (fs : List TypeaheadFlags) :
    readCharacters rounds ⟨(Utf8.encode cs).flatMap Keys.quote, fs⟩ =
      .ok (cs, ⟨[], fs.drop ((Utf8.encode cs).flatMap Keys.quote).length⟩) := by
  induction cs generalizing rounds fs with
  | nil => cases rounds <;> rfl
  | cons c cs ih =>
    obtain ⟨rounds, rfl⟩ : ∃ r, rounds = r + 1 := ⟨rounds - 1, by rw [List.length_cons] at hrounds; omega⟩
    rw [readCharacters, Utf8.encode_cons, List.flatMap_append, peekCharacter_quoted]
    show (readCharacters rounds _ >>= _) = _
    rw [consume_front, ih rounds (Nat.le_of_succ_le_succ hrounds), List.drop_drop, List.length_append]
    rfl

/-- Pieces are queued as the whole input is. -/
theorem appendPieces_bytes (pieces : List (List UInt8 × TypeaheadFlags)) (t : Typeahead) :
    (t.appendPieces pieces).bytes = t.bytes ++ (pieces.flatMap Prod.fst).flatMap Keys.quote := by
  induction pieces generalizing t with
  | nil => exact (List.append_nil _).symm
  | cons piece pieces ih =>
    show ((t.append (.encode piece.1) piece.2).appendPieces pieces).bytes = _
    rw [ih, List.flatMap_cons, List.flatMap_append, ← List.append_assoc]
    rfl

theorem appendPieces_lengths (pieces : List (List UInt8 × TypeaheadFlags)) {t : Typeahead}
    (h : t.flags.length = t.bytes.length) :
    (t.appendPieces pieces).flags.length = (t.appendPieces pieces).bytes.length := by
  induction pieces generalizing t with
  | nil => exact h
  | cons piece pieces ih =>
    refine ih ?_
    show (t.flags ++ List.replicate _ _).length = (t.bytes ++ _).length
    rw [List.length_append, List.length_append, h, List.length_replicate]
    rfl

/-- **The queue is whole keys, with flags for each byte, after every run; and queued text is read back
character by character, wherever its bytes were cut into pieces.** -/
theorem typeahead_keepsKeys {α : Type} :
    (∀ ops : List (Op α), Op.AllAllowed ops new →
      (Op.run ops new).flags.length = (Op.run ops new).bytes.length ∧
      ∃ keys, (Keys.mk (Op.run ops new).bytes).decode = .ok keys) ∧
    ∀ (cs : List Char) (pieces : List (List UInt8 × TypeaheadFlags)),
      pieces.flatMap Prod.fst = Utf8.encode cs → ∀ rounds, cs.length ≤ rounds →
        readCharacters rounds (new.appendPieces pieces) = .ok (cs, new) := by
  constructor
  · intro ops hops
    have h := Op.run_framed ops (t := new) .nil hops
    exact ⟨h.lengths, (decode_iff _).mpr h.whole⟩
  · intro cs pieces hpieces rounds hrounds
    have hqueue : new.appendPieces pieces =
        ⟨(Utf8.encode cs).flatMap Keys.quote, (new.appendPieces pieces).flags⟩ := by
      rw [← hpieces]
      exact congrArg (Typeahead.mk · _) (appendPieces_bytes pieces new)
    have hall : (new.appendPieces pieces).flags.length ≤ ((Utf8.encode cs).flatMap Keys.quote).length := by
      rw [appendPieces_lengths pieces rfl, congrArg Typeahead.bytes hqueue]
    rw [hqueue, readCharacters_quoted cs rounds hrounds, List.drop_eq_nil_of_le hall]
    rfl

/-- A special key is queued and popped; a letter and a euro sign are queued in pieces. -/
theorem typeahead_keepsKeys_euro :
    (∃ keys, (Keys.mk (Op.run (α := Unit)
      [.append ⟨[K_SPECIAL, KS_EXTRA, KE_EVENT]⟩ .typed, .pop] new).bytes).decode = .ok keys) ∧
    readCharacters 5 (new.appendPieces [([97, 0xe2], .typed), ([0x82], .typed), ([0xac], .typed)]) =
      .ok (['a', '€'], new) :=
  ⟨((typeahead_keepsKeys (α := Unit)).1 [.append ⟨[K_SPECIAL, KS_EXTRA, KE_EVENT]⟩ .typed, .pop] ⟨⟨[.special KS_EXTRA KE_EVENT], rfl⟩, trivial, trivial⟩).2,
    (typeahead_keepsKeys (α := Unit)).2 ['a', '€'] _ (by decide) 5 (by decide)⟩

end Typeahead

end Oxvim.Editor
