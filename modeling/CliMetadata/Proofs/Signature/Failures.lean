import CliMetadata.Heap.Blobs
import CliMetadata.Signature.Decode
import CliMetadata.Proofs.Decoder

/-!
# Where signatures cannot be read

Bytes that are no signature are malformed or too few, or the types in them nest
too deeply (`TypeSig.isFailure_of_ofBytes`, `MethodSig.isFailure_of_ofBytes`).
No other error comes of reading, so that whatever else a question about a type
fails with has another cause.
-/

namespace CliMetadata

open Decoder

/-- An error that reading bytes can end in, where types may nest up to a
limit. -/
inductive Signature.IsFailure (limit : Nat) : Error → Prop where
  | malformed (what : Malformation) : IsFailure limit (.malformed what)
  | outOfBounds : IsFailure limit .outOfBounds
  | tooDeep : IsFailure limit (.tooDeep limit)

open Signature

variable {limit : Nat}

/-- Reading ends in errors of reading. -/
abbrev Decoder.FailsToRead {α : Type} (limit : Nat) (d : Decoder α) : Prop :=
  d.Fails (IsFailure limit)

/-! ### Numbers, tokens and blobs -/

theorem Decoder.fails_malformed {α : Type} (what : Malformation) :
    (Decoder.malformed what : Decoder α).FailsToRead limit :=
  .throw (.malformed what)

theorem Decoder.fails_byte :
    Decoder.byte.FailsToRead limit := .byte .outOfBounds

theorem Decoder.fails_peek :
    Decoder.peek.FailsToRead limit := .peek .outOfBounds

theorem CompressedInteger.fails_decode :
    CompressedInteger.decode.FailsToRead limit := by
  refine fails_byte.bind fun lead => .ite (fun _ => .pure _)
    fun _ => .ite (fun _ => ?_) fun _ => ?_
  · exact fails_byte.bind fun _ => .pure _
  refine .ite (fun _ => ?_) fun _ => fails_malformed _
  exact fails_byte.bind fun _ => fails_byte.bind fun _ => fails_byte.bind
    fun _ => .pure _

theorem CodedToken.fails_decode : CodedToken.decode.FailsToRead limit := by
  refine CompressedInteger.fails_decode.bind fun coded => ?_
  rw [CodedToken.ofCoded]
  split
  · exact .pure _
  · exact fails_malformed _

theorem BlobHeap.fails_entry : BlobHeap.entry.FailsToRead limit :=
  CompressedInteger.fails_decode.bind fun _ => .block .outOfBounds _

/-! ### Parts of signatures -/

section
variable {token : Decoder Token} {type : Decoder TypeSig}
  (htoken : token.FailsToRead limit) (htype : type.FailsToRead limit)

section
include htoken

theorem Modifier.fails_decodeWith? :
    (Modifier.decodeWith? token).FailsToRead limit := by
  intro bytes error h
  cases bytes with
  | nil => cases h
  | cons b rest =>
    change (if _ then _ else _) = _ at h
    split at h
    · cases hrun : token.run rest with
      | error e =>
        rw [hrun] at h
        cases h
        exact htoken rest error hrun
      | ok =>
        rw [hrun] at h
        cases h
    · cases h

theorem Modifier.fails_decodeUpTo (bound : Nat) :
    (Modifier.decodeUpTo token bound).FailsToRead limit := by
  induction bound with
  | zero => exact .pure _
  | succ bound ih =>
    refine (Modifier.fails_decodeWith? htoken).bind fun found => ?_
    cases found with
    | some => exact ih.bind fun _ => .pure _
    | none => exact .pure _

theorem Modifier.fails_decodeEachWith :
    (Modifier.decodeEachWith token).FailsToRead limit :=
  Fails.remaining.bind fun _ => Modifier.fails_decodeUpTo htoken _

end

theorem fails_decodeNumbers : decodeNumbers.FailsToRead limit :=
  CompressedInteger.fails_decode.bind fun _ =>
    .times CompressedInteger.fails_decode _

theorem ParamSig.fails_decodeSentinel (added : Bool) :
    (ParamSig.decodeSentinel added).FailsToRead limit :=
  fails_peek.bind fun _ =>
    .ite (fun _ => fails_byte.bind fun _ => .pure _) fun _ => .pure _

include htoken htype

theorem ParamSig.fails_decodeWith :
    (ParamSig.decodeWith token type).FailsToRead limit := by
  refine (Modifier.fails_decodeEachWith htoken).bind
    fun modifiers => fails_peek.bind fun _ => ?_
  refine .ite (fun _ => fails_byte.bind fun _ => ?_) fun _ => ?_
  · exact htype.bind fun _ => .pure _
  · exact htype.bind fun _ => .pure _

theorem ParamSig.fails_decodeList (count : Nat) (added : Bool) :
    (ParamSig.decodeList token type count added).FailsToRead limit := by
  induction count generalizing added with
  | zero => exact .pure _
  | succ count ih =>
    refine (ParamSig.fails_decodeSentinel added).bind fun added => ?_
    refine (ParamSig.fails_decodeWith htoken htype).bind
      fun _ => (ih added).bind fun _ => ?_
    exact .pure _

theorem MethodSig.fails_decodeWith :
    (MethodSig.decodeWith token type).FailsToRead limit := by
  have after (head : UInt8) :
      (MethodSig.decodeAfter token type head).FailsToRead limit := by
    have generics : (MethodSig.decodeGenericCount head).FailsToRead limit :=
      .ite (fun _ => CompressedInteger.fails_decode) fun _ => .pure _
    refine generics.bind fun _ => CompressedInteger.fails_decode.bind
      fun count => ?_
    refine (ParamSig.fails_decodeWith htoken htype).bind fun _ => ?_
    exact (ParamSig.fails_decodeList htoken htype _ _).bind fun _ => .pure _
  refine fails_byte.bind fun head => .ite (fun _ => ?_) fun _ => after head
  exact (fails_malformed _).bind fun _ => after head

theorem TypeSig.fails_decodeAfter (lead : UInt8) :
    (TypeSig.decodeAfter token type lead).FailsToRead limit := by
  rw [TypeSig.decodeAfter]
  split
  · exact .pure _
  have modified {build : List Modifier → TypeSig → TypeSig} :
      Decoder.FailsToRead limit
      (do let modifiers ← Modifier.decodeEachWith token
          return build modifiers (← type)) :=
    (Modifier.fails_decodeEachWith htoken).bind fun _ => htype.bind
      fun _ => .pure _
  have single {build : TypeSig → TypeSig} :
      Decoder.FailsToRead limit (do return build (← type)) :=
    htype.bind fun _ => .pure _
  have named {build : Token → TypeSig} :
      Decoder.FailsToRead limit (do return build (← token)) :=
    htoken.bind fun _ => .pure _
  have numbered {build : UInt32 → TypeSig} :
      Decoder.FailsToRead limit
        (do return build (← CompressedInteger.decode)) :=
    CompressedInteger.fails_decode.bind fun _ => .pure _
  refine .ite (fun _ => modified) fun _ => ?_
  refine .ite (fun _ => single) fun _ => ?_
  refine .ite (fun _ => named) fun _ => ?_
  refine .ite (fun _ => named) fun _ => ?_
  refine .ite (fun _ => numbered) fun _ => ?_
  refine .ite (fun _ => numbered) fun _ => ?_
  refine .ite (fun _ => ?_) fun _ => .ite (fun _ => ?_) fun _ => ?_
  · -- An array of some rank.
    refine htype.bind fun element => CompressedInteger.fails_decode.bind
      fun rank => ?_
    have shape : Decoder.FailsToRead limit (do
        let sizes ← decodeNumbers
        return TypeSig.array element rank sizes (← decodeNumbers)) :=
      fails_decodeNumbers.bind fun _ => fails_decodeNumbers.bind
        fun _ => .pure _
    exact .ite (fun _ => (fails_malformed _).bind fun _ => shape) fun _ => shape
  · -- A generic type with its arguments.
    have after : Decoder.FailsToRead limit (do
        let definition ← type
        let count ← CompressedInteger.decode
        if count = 0 then
          Decoder.malformed .noTypeArguments
        return TypeSig.generic definition
          (← Decoder.times type count.toNat)) := by
      refine htype.bind fun definition => CompressedInteger.fails_decode.bind
        fun count => ?_
      have arguments : Decoder.FailsToRead limit (do
          return TypeSig.generic definition
            (← Decoder.times type count.toNat)) :=
        (Fails.times htype _).bind fun _ => .pure _
      exact .ite (fun _ => (fails_malformed _).bind fun _ => arguments)
        fun _ => arguments
    refine fails_peek.bind fun next => ?_
    exact .ite (fun _ => (fails_malformed _).bind fun _ => after) fun _ => after
  refine .ite (fun _ => ?_) fun _ => ?_
  · exact (MethodSig.fails_decodeWith htoken htype).bind fun _ => .pure _
  refine .ite (fun _ => modified) fun _ => ?_
  exact .ite (fun _ => single) fun _ => fails_malformed _

end

/-! ### Signatures -/

theorem TypeSig.fails_decode (limit : Nat) :
    (TypeSig.decode limit).FailsToRead limit := by
  have within (room : Nat) :
      (TypeSig.decodeWithin CodedToken.decode limit room).FailsToRead
        limit := by
    induction room with
    | zero => exact .throw .tooDeep
    | succ room ih =>
      exact fails_byte.bind fun lead => TypeSig.fails_decodeAfter
        CodedToken.fails_decode ih lead
  exact within limit

/-- What cannot be read as a type is malformed, too short or too deeply
nested. -/
theorem TypeSig.isFailure_of_ofBytes {bytes : List UInt8} {error : Error}
    (h : TypeSig.ofBytes limit bytes = .error error) : IsFailure limit error :=
  (TypeSig.fails_decode limit).of_run' h

/-- What cannot be read as the signature of a method is malformed, too short or
too deeply nested. -/
theorem MethodSig.isFailure_of_ofBytes {bytes : List UInt8} {error : Error}
    (h : MethodSig.ofBytes limit bytes = .error error) :
    IsFailure limit error :=
  (MethodSig.fails_decodeWith CodedToken.fails_decode
    (TypeSig.fails_decode limit)).of_run' h

end CliMetadata
