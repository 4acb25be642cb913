import Injection.Opcode
import Injection.Binary.Shortest
import Injection.Text.Quoted

/-!
Constants that an instruction can load, and the method handles among them. Floating-point
constants are kept as bit patterns, so that two of them are equal when they are written alike.
-/

namespace Injection

/-- A reference to a field or method together with the way in which it is used. -/
structure Handle where
  kind : UInt8
  owner : String
  name : String
  desc : String
  interface : Bool
deriving DecidableEq, Hashable, Inhabited

/-- A loadable constant. A class is given by its internal name or its array descriptor. -/
inductive Constant where
  | int (value : Int32)
  | float (bits : UInt32)
  | long (value : Int64)
  | double (bits : UInt64)
  | string (text : String)
  | classRef (name : String)
  | methodType (desc : String)
  | methodHandle (handle : Handle)
  | dynamic (name desc : String) (bootstrap : Handle) (args : List Constant)
deriving Inhabited

namespace Constant

mutual

def decEq : (a b : Constant) → Decidable (a = b)
  | int a, int b => decidable_of_iff (a = b) (by simp)
  | float a, float b => decidable_of_iff (a = b) (by simp)
  | long a, long b => decidable_of_iff (a = b) (by simp)
  | double a, double b => decidable_of_iff (a = b) (by simp)
  | string a, string b => decidable_of_iff (a = b) (by simp)
  | classRef a, classRef b => decidable_of_iff (a = b) (by simp)
  | methodType a, methodType b => decidable_of_iff (a = b) (by simp)
  | methodHandle a, methodHandle b => decidable_of_iff (a = b) (by simp)
  | dynamic n d h as, dynamic n' d' h' as' =>
    have := decEqList as as'
    decidable_of_iff (n = n' ∧ d = d' ∧ h = h' ∧ as = as') (by simp)
  | int _, float _ | int _, long _ | int _, double _ | int _, string _ | int _, classRef _
  | int _, methodType _ | int _, methodHandle _ | int _, dynamic .. => isFalse nofun
  | float _, int _ | float _, long _ | float _, double _ | float _, string _
  | float _, classRef _ | float _, methodType _ | float _, methodHandle _
  | float _, dynamic .. => isFalse nofun
  | long _, int _ | long _, float _ | long _, double _ | long _, string _ | long _, classRef _
  | long _, methodType _ | long _, methodHandle _ | long _, dynamic .. => isFalse nofun
  | double _, int _ | double _, float _ | double _, long _ | double _, string _
  | double _, classRef _ | double _, methodType _ | double _, methodHandle _
  | double _, dynamic .. => isFalse nofun
  | string _, int _ | string _, float _ | string _, long _ | string _, double _
  | string _, classRef _ | string _, methodType _ | string _, methodHandle _
  | string _, dynamic .. => isFalse nofun
  | classRef _, int _ | classRef _, float _ | classRef _, long _ | classRef _, double _
  | classRef _, string _ | classRef _, methodType _ | classRef _, methodHandle _
  | classRef _, dynamic .. => isFalse nofun
  | methodType _, int _ | methodType _, float _ | methodType _, long _ | methodType _, double _
  | methodType _, string _ | methodType _, classRef _ | methodType _, methodHandle _
  | methodType _, dynamic .. => isFalse nofun
  | methodHandle _, int _ | methodHandle _, float _ | methodHandle _, long _
  | methodHandle _, double _ | methodHandle _, string _ | methodHandle _, classRef _
  | methodHandle _, methodType _ | methodHandle _, dynamic .. => isFalse nofun
  | dynamic .., int _ | dynamic .., float _ | dynamic .., long _ | dynamic .., double _
  | dynamic .., string _ | dynamic .., classRef _ | dynamic .., methodType _
  | dynamic .., methodHandle _ => isFalse nofun

def decEqList : (as bs : List Constant) → Decidable (as = bs)
  | [], [] => isTrue rfl
  | [], _ :: _ | _ :: _, [] => isFalse nofun
  | a :: as, b :: bs =>
    have := decEq a b
    have := decEqList as bs
    decidable_of_iff (a = b ∧ as = bs) (by simp)

end

instance : DecidableEq Constant := decEq

/-- Constants of two words. -/
def isWide : Constant → Bool
  | long _ | double _ => true
  | _ => false

def text : Constant → String
  | int value => toString value.toInt
  | float bits => BinaryFormat.single.text bits.toNat ++ "F"
  | long value => toString value.toInt ++ "L"
  | double bits => BinaryFormat.double.text bits.toNat ++ "D"
  | string text => Quoted.quote text
  | classRef name => name ++ ".class"
  | methodType desc => desc
  | methodHandle h => h.owner ++ "." ++ h.name ++ h.desc
  | dynamic name desc .. => name ++ " : " ++ desc

end Constant

end Injection
