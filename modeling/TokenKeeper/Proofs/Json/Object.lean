import TokenKeeper.Proofs.Json.Quoted
import TokenKeeper.Token.Resource
/-! Objects as they are written, and a reader of objects whose values are strings: it gives the
fields in order, repeated ones too. -/
namespace TokenKeeper.Json
open Text.Utf8

def writtenMembers (member : String × List Char) : List (String × List Char) → List UInt8
  | [] => Quoted.written member.1 ++ 0x3a :: encode member.2
  | next :: members =>
    Quoted.written member.1 ++
      0x3a :: (encode member.2 ++ 0x2c :: 0x22 :: writtenMembers next members)

theorem encode_members (member : String × List Char) (members : List (String × List Char)) :
    encode ([','].intercalate ((member :: members).map fun m => quoted m.1 ++ ':' :: m.2)) =
      0x22 :: writtenMembers member members := by
  have hmember (m : String × List Char) : encode (quoted m.1 ++ ':' :: m.2) =
      0x22 :: (Quoted.written m.1 ++ 0x3a :: encode m.2) := by
    rw [encode_append, encode_cons, encode_quoted]
    rfl
  induction members generalizing member with
  | nil =>
    rw [List.map_singleton, List.intercalate_singleton, hmember]
    rfl
  | cons next members ih =>
    have hnext := ih next
    rw [List.map_cons] at hnext
    rw [List.map_cons, List.map_cons, List.intercalate_cons_cons, encode_append, encode_append,
      hmember, hnext, List.append_assoc, List.cons_append, List.append_assoc]
    rfl

theorem encode_object (member : String × List Char) (members : List (String × List Char)) :
    encode (object (member :: members)) =
      0x7b :: 0x22 :: (writtenMembers member members ++ [0x7d]) := by
  rw [object, List.cons_append, encode_cons, encode_append, encode_members]
  rfl

def readField (octets : List UInt8) : Except Fault ((String × String) × List UInt8) := do
  let (name, rest) ← Quoted.read octets
  let rest ← Resource.readColon rest
  let (value, rest) ← readString rest
  .ok ((name, value), rest)

/-- Reads fields, the first one from after the opening quote of its name. Each takes up at least
one octet, so their number bounds the fuel. -/
def readFields (fuel : Nat) (octets : List UInt8) :
    Except Fault (List (String × String) × List UInt8) :=
  match fuel with
  | 0 => .error .ended
  | fuel+1 => do
    let (field, rest) ← readField octets
    match skipBlanks rest with
    | [] => .error .ended
    | octet :: rest =>
      if octet = 0x7d then .ok ([field], rest)
      else if octet = 0x2c then
        match skipBlanks rest with
        | [] => .error .ended
        | octet :: rest =>
          if octet = 0x22 then do
            let (fields, rest) ← readFields fuel rest
            .ok (field :: fields, rest)
          else .error .malformed
      else .error .malformed

def fieldsOf (octets : List UInt8) : Except Fault (List (String × String)) :=
  match skipBlanks octets with
  | 0x7b :: rest =>
    match skipBlanks rest with
    | [] => .error .ended
    | octet :: rest =>
      if octet = 0x7d then finish [] rest
      else if octet = 0x22 then do
        let (fields, rest) ← readFields (rest.length + 1) rest
        finish fields rest
      else .error .malformed
  | start => .error (mismatch start)

def member (field : String × String) : String × List Char := (field.1, quoted field.2)

theorem readField_written (field : String × String) (rest : List UInt8) :
    readField (Quoted.written field.1 ++ 0x3a :: (encode (quoted field.2) ++ rest)) =
      .ok (field, rest) := by
  rw [readField, Quoted.read_written]
  change (do
    let (value, rest) ← readString (encode (quoted field.2) ++ rest)
    .ok ((field.1, value), rest) : Except Fault ((String × String) × List UInt8)) = _
  rw [readString_quoted]
  rfl

theorem readFields_written (field : String × String) (fields : List (String × String))
    {fuel : Nat} (hfuel : fields.length < fuel) (rest : List UInt8) :
    readFields fuel (writtenMembers (member field) (fields.map member) ++ 0x7d :: rest) =
      .ok (field :: fields, rest) := by
  induction fields generalizing field fuel with
  | nil =>
    obtain ⟨fuel, rfl⟩ := Nat.exists_eq_add_one_of_ne_zero (Nat.ne_of_gt hfuel)
    rw [List.map_nil, writtenMembers, member, List.append_assoc, List.cons_append, readFields,
      readField_written]
    rfl
  | cons next fields ih =>
    obtain ⟨fuel, rfl⟩ :=
      Nat.exists_eq_add_one_of_ne_zero (Nat.ne_of_gt (Nat.zero_lt_of_lt hfuel))
    have hnext := ih next (Nat.lt_of_succ_lt_succ hfuel)
    rw [List.map_cons, writtenMembers, List.append_assoc, List.cons_append, List.append_assoc,
      List.cons_append, List.cons_append, readFields, member, readField_written]
    change (do
      let (fields, rest) ← readFields fuel
        (writtenMembers (member next) (fields.map member) ++ 0x7d :: rest)
      .ok (field :: fields, rest) : Except Fault (List (String × String) × List UInt8)) = _
    rw [hnext]
    rfl

theorem length_lt_writtenMembers (m : String × List Char) (members : List (String × List Char)) :
    members.length < (writtenMembers m members).length := by
  induction members generalizing m with
  | nil =>
    rw [writtenMembers, List.length_append, List.length_cons]
    exact Nat.zero_lt_succ _
  | cons next members ih =>
    have hnext := ih next
    simp only [writtenMembers, List.length_append, List.length_cons]
    omega

/-- Any fields, in any order and number, are read back from the object they were written as. -/
theorem fieldsOf_object (fields : List (String × String)) :
    fieldsOf (encode (object (fields.map member))) = .ok fields := by
  cases fields with
  | nil => rfl
  | cons field fields =>
    have hfuel : fields.length <
        (writtenMembers (member field) (fields.map member) ++ [0x7d]).length + 1 := by
      have := length_lt_writtenMembers (member field) (fields.map member)
      rw [List.length_map] at this
      rw [List.length_append]
      omega
    have hread := readFields_written field fields hfuel []
    rw [List.map_cons, encode_object]
    change (do
      let (fields, rest) ← readFields
        ((writtenMembers (member field) (fields.map member) ++ [0x7d]).length + 1)
        (writtenMembers (member field) (fields.map member) ++ [0x7d])
      finish fields rest) = _
    rw [hread]
    rfl

end TokenKeeper.Json
