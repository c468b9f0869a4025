import TokenKeeper.Json.Fault
/-! Passing over a JSON value of any depth. Its form is checked, but not the text inside its
strings nor the range of its numbers. -/
namespace TokenKeeper.Json.Skip

inductive Frame where
  | array
  | object
deriving DecidableEq

inductive Digits where
  | sign
  | zero
  | whole
  | point
  | fraction
  | mark
  | markSign
  | exponent
deriving DecidableEq

inductive Letters where
  | plain
  | escaped
  | unit (left : Nat) (digits : Bool)
deriving DecidableEq

inductive Progress where
  | value
  | word (left : List UInt8)
  | number (digits : Digits)
  | string (key : Bool) (letters : Letters)
  /-- Right after an opening bracket. -/
  | opened
  | key
  | colon
  /-- After a value inside the innermost frame. -/
  | closed
deriving DecidableEq

/-- What an octet does: reading goes on, or the value ends with this octet or before it. -/
inductive Turn where
  | more (progress : Progress) (frames : List Frame)
  | through
  | before
deriving DecidableEq

def done : List Frame → Turn
  | [] => .through
  | frames => .more .closed frames

def value (frames : List Frame) (octet : UInt8) : Except Fault Turn :=
  if isBlank octet then .ok (.more .value frames)
  else if octet = 0x22 then .ok (.more (.string false .plain) frames)
  else if octet = 0x5b then .ok (.more .opened (.array :: frames))
  else if octet = 0x7b then .ok (.more .opened (.object :: frames))
  else if octet = 0x2d then .ok (.more (.number .sign) frames)
  else if octet = 0x30 then .ok (.more (.number .zero) frames)
  else if isDigit octet then .ok (.more (.number .whole) frames)
  else if octet = 0x6e then .ok (.more (.word [0x75, 0x6c, 0x6c]) frames)
  else if octet = 0x74 then .ok (.more (.word [0x72, 0x75, 0x65]) frames)
  else if octet = 0x66 then .ok (.more (.word [0x61, 0x6c, 0x73, 0x65]) frames)
  else .error .malformed

def key (frames : List Frame) (octet : UInt8) : Except Fault Turn :=
  if isBlank octet then .ok (.more .key frames)
  else if octet = 0x22 then .ok (.more (.string true .plain) frames)
  else .error .malformed

def start : List Frame → Progress
  | .object :: _ => .key
  | _ => .value

def closed (frames : List Frame) (octet : UInt8) : Except Fault Turn :=
  if isBlank octet then .ok (.more .closed frames)
  else if octet = 0x2c then .ok (.more (start frames) frames)
  else match frames with
    | .array :: rest => if octet = 0x5d then .ok (done rest) else .error .malformed
    | .object :: rest => if octet = 0x7d then .ok (done rest) else .error .malformed
    | [] => .error .malformed

def opened (frames : List Frame) (octet : UInt8) : Except Fault Turn :=
  if isBlank octet then .ok (.more .opened frames)
  else match frames with
    | .array :: rest => if octet = 0x5d then .ok (done rest) else value frames octet
    | .object :: rest => if octet = 0x7d then .ok (done rest) else key frames octet
    | [] => .error .malformed

def Digits.complete : Digits → Bool
  | .zero | .whole | .fraction | .exponent => true
  | .sign | .point | .mark | .markSign => false

def Digits.next? (digits : Digits) (octet : UInt8) : Option Digits :=
  let isMark := octet == 0x65 || octet == 0x45
  match digits with
  | .sign => if octet = 0x30 then some .zero else if isDigit octet then some .whole else none
  | .zero => if octet = 0x2e then some .point else if isMark then some .mark else none
  | .whole =>
    if isDigit octet then some .whole
    else if octet = 0x2e then some .point else if isMark then some .mark else none
  | .point => if isDigit octet then some .fraction else none
  | .fraction => if isDigit octet then some .fraction else if isMark then some .mark else none
  | .mark =>
    if octet = 0x2b ∨ octet = 0x2d then some .markSign
    else if isDigit octet then some .exponent else none
  | .markSign => if isDigit octet then some .exponent else none
  | .exponent => if isDigit octet then some .exponent else none

def number (frames : List Frame) (digits : Digits) (octet : UInt8) : Except Fault Turn :=
  match digits.next? octet with
  | some digits => .ok (.more (.number digits) frames)
  | none =>
    if !digits.complete || (digits == .zero && isDigit octet) then .error .malformed
    else if frames = [] then .ok .before
    else closed frames octet

def string (frames : List Frame) (isKey : Bool) (letters : Letters) (octet : UInt8) :
    Except Fault Turn :=
  match letters with
  | .plain =>
    if octet = 0x22 then .ok (if isKey then .more .colon frames else done frames)
    else if octet = 0x5c then .ok (.more (.string isKey .escaped) frames)
    else if octet < 0x20 then .error .malformed
    else .ok (.more (.string isKey .plain) frames)
  | .escaped =>
    if octet = 0x75 then .ok (.more (.string isKey (.unit 3 true)) frames)
    else if [0x22, 0x5c, 0x2f, 0x62, 0x66, 0x6e, 0x72, 0x74].contains octet then
      .ok (.more (.string isKey .plain) frames)
    else .error .malformed
  | .unit left digits =>
    let digits := digits && (hexValue? octet).isSome
    match left with
    | left+1 => .ok (.more (.string isKey (.unit left digits)) frames)
    | 0 => if digits then .ok (.more (.string isKey .plain) frames) else .error .malformed

def step (progress : Progress) (frames : List Frame) (octet : UInt8) : Except Fault Turn :=
  match progress with
  | .value => value frames octet
  | .word [] => .error .malformed
  | .word [last] => if octet = last then .ok (done frames) else .error .malformed
  | .word (w :: left) => if octet = w then .ok (.more (.word left) frames) else .error .malformed
  | .number digits => number frames digits octet
  | .string isKey letters => string frames isKey letters octet
  | .opened => opened frames octet
  | .key => key frames octet
  | .colon =>
    if isBlank octet then .ok (.more .colon frames)
    else if octet = 0x3a then .ok (.more .value frames) else .error .malformed
  | .closed => closed frames octet

/-- A number that the end of the text cuts short is malformed; anything else has ended. -/
def atEnd (progress : Progress) (frames : List Frame) : Except Fault (List UInt8) :=
  match progress with
  | .number digits =>
    if !digits.complete then .error .malformed
    else if frames = [] then .ok [] else .error .ended
  | _ => .error .ended

def skipFrom (progress : Progress) (frames : List Frame) :
    List UInt8 → Except Fault (List UInt8)
  | [] => atEnd progress frames
  | octet :: rest =>
    match step progress frames octet with
    | .error fault => .error fault
    | .ok (.more progress frames) => skipFrom progress frames rest
    | .ok .through => .ok rest
    | .ok .before => .ok (octet :: rest)

def skip (octets : List UInt8) : Except Fault (List UInt8) := skipFrom .value [] octets

end TokenKeeper.Json.Skip
