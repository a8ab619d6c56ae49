import JvmAot.Proofs.ClassFile.PoolEntries
import Mathlib.Logic.ExistsUnique

/-! # A class file says where it ends

Every part of a class file `Delimits`. The mark of a cursor is never taken back, so it is enough that it is looked at
once, after the last attributes: no read on the way went beyond the end. Hence a class file ends where its decoder
stops, whatever follows is not looked at, and a file that is cut before that is refused
(`ClassFile.decode_self_delimiting`). -/

namespace JvmAot

open Decoder

theorem Pool.delimits_decodeSlots (count slot : Nat) (skip : Bool) (entries : Array PoolEntry) :
    (decodeSlots count slot skip entries).Delimits := by
  induction count generalizing slot skip entries with
  | zero => exact delimits_pure entries
  | succ count ih =>
    cases skip with
    | true => exact ih _ _ _
    | false => exact (PoolEntry.delimits_decode slot).bind fun entry => ih _ _ _

theorem Pool.delimits_decode : decode.Delimits :=
  (delimits_number 2).bind fun _ => (delimits_decodeSlots _ 1 false _).bind fun _ => delimits_pure _

theorem settles_skipAttributes : skipAttributes.Settles := by
  have hskip (indices : List Nat) : Delimits (indices.forM fun _ => do
      let _ ← Reading.u2
      let _ ← Reading.take (← Reading.u4)) := by
    induction indices with
    | nil => exact delimits_pure ()
    | cons _ indices ih =>
      refine .bind ?_ fun _ => ih
      exact (delimits_number 2).bind fun _ => (delimits_number 4).bind fun length =>
        (delimits_take length).bind fun _ => delimits_pure ()
  exact (delimits_number 2).settles_bind fun count => (hskip (List.range count)).settles_bind fun _ => settles_checkEnd

theorem MethodDecl.delimits_decodeAttributes (pool : Pool) (name descriptor : String) (count : Nat) (code : Option Code) :
    (decodeAttributes pool name descriptor count code).Delimits := by
  induction count generalizing code with
  | zero => exact delimits_pure code
  | succ count ih =>
    refine (delimits_number 2).bind fun index => ((delimits_ofExcept _).within _).bind fun kind => ?_
    refine (delimits_number 4).bind fun length => (delimits_take length).bind fun body => ?_
    refine settles_checkEnd.delimits.bind fun _ => ?_
    split
    · exact ((delimits_ofExcept _).within _).bind fun code => ih (some code)
    · exact ih code

theorem MethodDecl.delimits_decode (pool : Pool) : (decode pool).Delimits :=
  (delimits_number 2).bind fun _ => (delimits_number 2).bind fun _ => (delimits_ofExcept _).bind fun name =>
    (delimits_number 2).bind fun _ => (delimits_ofExcept _).bind fun descriptor => (delimits_number 2).bind fun count =>
    (delimits_decodeAttributes pool name descriptor count none).bind fun _ => delimits_pure _

theorem FieldDecl.delimits_decode (pool : Pool) (className : String) (index : Nat) :
    (decode pool className index).Delimits :=
  (delimits_number 2).bind fun _ => (delimits_number 2).bind fun _ => ((delimits_ofExcept _).within _).bind fun _ =>
    (delimits_number 2).bind fun _ => ((delimits_ofExcept _).within _).bind fun _ =>
    (settles_skipAttributes.delimits.within _).bind fun _ => delimits_pure _

namespace ClassFile

theorem settles_decoder : decoder.Settles := by
  refine (delimits_number 4).settles_bind fun found => ?_
  extract_lets declarations
  have hdeclarations : (declarations ()).Settles := by
    refine (delimits_number 2).settles_bind fun minor => (delimits_number 2).settles_bind fun major => ?_
    refine settles_checkEnd.delimits.settles_bind fun _ => Pool.delimits_decode.settles_bind fun pool => ?_
    refine (delimits_number 2).settles_bind fun flags => (delimits_number 2).settles_bind fun this => ?_
    refine (delimits_number 2).settles_bind fun super => settles_checkEnd.delimits.settles_bind fun _ => ?_
    refine ((delimits_ofExcept _).within _).settles_bind fun name => (delimits_ofExcept _).settles_bind fun superName => ?_
    refine (delimits_number 2).settles_bind fun count => (delimits_repeated fun i => ?_).settles_bind fun interfaces => ?_
    · exact (delimits_number 2).bind fun index => (delimits_ofExcept _).within _
    refine (delimits_number 2).settles_bind fun count => ?_
    refine (delimits_repeated fun i => FieldDecl.delimits_decode pool name i).settles_bind fun fields => ?_
    refine (delimits_number 2).settles_bind fun count => ?_
    refine (delimits_repeated fun i => (MethodDecl.delimits_decode pool).within _).settles_bind fun methods => ?_
    exact (settles_skipAttributes.within _).bind_pure
  split
  · exact (delimits_fail _).settles_bind fun _ => hdeclarations
  · exact hdeclarations

theorem toList_eq (bytes : ByteArray) : bytes.toList = bytes.data.toList := by
  have hloop (i : Nat) (before : List UInt8) :
      ByteArray.toList.loop bytes i before = before.reverse ++ bytes.data.toList.drop i := by
    fun_induction ByteArray.toList.loop bytes i before with
    | case1 i before hi ih =>
      have hlength : i < bytes.data.toList.length := by simpa using hi
      have hget : bytes.get! i = bytes.data.toList[i] := getElem!_pos bytes.data i hi
      rw [ih, hget, List.drop_eq_getElem_cons hlength, List.reverse_cons, List.append_assoc, List.singleton_append]
    | case2 i before hi =>
      rw [List.drop_eq_nil_of_le (by simpa using hi), List.append_nil]
  exact hloop 0 []

theorem toList_extract (bytes : ByteArray) (n : Nat) : (bytes.extract 0 n).toList = bytes.toList.take n := by
  rw [toList_eq, toList_eq, ByteArray.data_extract]
  simp

/-- A class file ends at one place: the same class is read whatever follows, and nothing is read if anything is
missing. -/
theorem decode_self_delimiting {bytes : ByteArray} {file : ClassFile} (h : decode bytes = .ok file) :
    ∃! n, n ≤ bytes.size ∧
      (∀ other : ByteArray, other.toList.take n = bytes.toList.take n → decode other = .ok file) ∧
      ∀ m < n, ∃ failure, decode (bytes.extract 0 m) = .error failure := by
  obtain ⟨used, hbegins, hreads⟩ := settles_decoder.reads_of_decode h
  have hused : bytes.toList.take used.length = used := (List.prefix_iff_eq_take.1 hbegins).symm
  have hwhole : decode (bytes.extract 0 used.length) = .ok file := by
    have hbytes : (bytes.extract 0 used.length).toList = used := by rw [toList_extract, hused]
    exact hreads.decode ⟨[], by rw [List.append_nil, hbytes]⟩
  have hcut : ∀ m < used.length, ∃ failure, decode (bytes.extract 0 m) = .error failure := by
    intro m hm
    unfold decode
    have hpart : bytes.toList.take m = used.take m := by
      rw [← hused, List.take_take, Nat.min_eq_left (Nat.le_of_lt hm)]
    rw [toList_extract, hpart]
    refine settles_decoder.decode_of_cut hreads (List.take_prefix m used) fun heq => ?_
    have hlength := congrArg List.length heq
    rw [List.length_take_of_le (Nat.le_of_lt hm)] at hlength
    omega
  refine ⟨used.length, ⟨?_, fun other hother => ?_, hcut⟩, fun n ⟨_, hsame, hcut'⟩ => ?_⟩
  · have hle := hbegins.length_le
    rwa [toList_eq, Array.length_toList] at hle
  · rw [hused] at hother
    exact hreads.decode (hother ▸ List.take_prefix _ _)
  · -- The shorter one of two such beginnings would be both read and refused.
    rcases Nat.lt_trichotomy n used.length with hlt | heq | hlt
    · obtain ⟨failure, hfailure⟩ := hcut n hlt
      have hok := hsame (bytes.extract 0 n) (by rw [toList_extract, List.take_take, Nat.min_self])
      rw [hfailure] at hok
      cases hok
    · exact heq
    · obtain ⟨failure, hfailure⟩ := hcut' used.length hlt
      rw [hwhole] at hfailure
      cases hfailure

/-- A class with one method, and two bytes that do not belong to it. -/
def padded : ByteArray :=
  ⟨⟨[202, 254, 186, 190, 0, 0, 0, 52, 0, 8, 1, 0, 1, 65, 7, 0, 1, 5, 0, 0, 0, 0, 0, 0, 0, 7, 1, 0, 1, 109, 1, 0, 3, 40, 41, 86, 1, 0, 4, 67, 111, 100, 101, 0, 33, 0, 2, 0, 0, 0, 0, 0, 0, 0, 1, 0, 9, 0, 5, 0, 6, 0, 1, 0, 7, 0, 0, 0, 13, 0, 0, 0, 0, 0, 0, 0, 1, 177, 0, 0, 0, 0, 0, 0, 7, 7]⟩⟩

theorem padded_ends_once : ∃ file, decode padded = .ok file ∧ file.methods.map MethodDecl.name = ["m"] ∧
    ∃! n, n ≤ padded.size ∧
      (∀ other : ByteArray, other.toList.take n = padded.toList.take n → decode other = .ok file) ∧
      ∀ m < n, ∃ failure, decode (padded.extract 0 m) = .error failure := by
  have hmethods : (decode padded).toOption.map (fun file => file.methods.map MethodDecl.name) = some ["m"] := by
    decide +kernel
  cases hread : decode padded with
  | error =>
    rw [hread] at hmethods
    cases hmethods
  | ok file =>
    rw [hread] at hmethods
    exact ⟨file, rfl, Option.some.inj hmethods, decode_self_delimiting hread⟩

end ClassFile

end JvmAot
