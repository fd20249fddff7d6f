import Frr.PluginsInjection
import Mathlib.Data.List.TakeWhile
import Mathlib.Tactic

/-! The user interface of the plugins manager (`plugins_ui.c`). It packs insertion point and anchor
of a line of the manifest into the type of a message, and `plugins_manager` takes them apart again.
-/
namespace Frr.Plugins

open List

/-- The size of the buffer `line`. -/
def lineSize : Nat := 100

/-- Up to the end of the line or of the room, and what stays in the file. -/
def fgets : Nat → List Char → List Char × List Char
  | 0, text => ([], text)
  | _ + 1, [] => ([], [])
  | room + 1, c :: text =>
    if c = '\n' then ([c], text)
    else (c :: (fgets room text).1, (fgets room text).2)

/-- The tokens that the calls of `strtok` deliver one after the other. -/
def strtok (line : List Char) : List (List Char) := (line.splitOn ' ').filter (· ≠ [])

def isspace (c : Char) : Bool :=
  c ∈ [' ', '\t', '\n', Char.ofNat 11, Char.ofNat 12, '\r']

/-- The nearest value of type `long`. -/
def clamp (n : Int) : Int64 := Int64.ofInt (max (-2 ^ 63) (min n (2 ^ 63 - 1)))

def magnitude (number : List Char) : Nat :=
  Nat.ofDigitChars 10 (number.takeWhile Char.isDigit) 0

/-- `strtol` in base 10. What follows the number is not looked at. -/
def strtol (token : List Char) : Int64 :=
  clamp (match token.dropWhile isspace with
    | '-' :: number => -(magnitude number : Int)
    | '+' :: number => magnitude number
    | number => magnitude number)

def encode (insertionPoint anchor : Int64) : Int64 := insertionPoint*100+anchor

/-- `msgsnd` refuses a message whose type is not positive. -/
def msgsnd (m : Message) : Option Message := if 0 < m.mesgType then some m else none

/-- The body of the loop of `main`, where `none` is a return with an error. -/
def sendLine (line : List Char) : Option Message :=
  match strtok line with
  | [filename, insertionPoint, anchor] =>
    msgsnd ⟨encode (strtol insertionPoint) (strtol anchor), String.ofList filename⟩
  | _ => none

/-- The loop of `main`: the messages, and whether it reached the end of the manifest. -/
def sendLines : Nat → List Char → List Message × Bool
  | 0, _ => ([], true)
  | fuel + 1, text =>
    match fgets (lineSize-1) text with
    | ([], _) => ([], true)
    | (line, rest) =>
      match sendLine line with
      | none => ([], false)
      | some m => (m :: (sendLines fuel rest).1, (sendLines fuel rest).2)

/-- Every call of `fgets` takes a character, so there are at most as many turns. -/
def uiMain (manifest : List Char) : List Message × Bool := sendLines manifest.length manifest

def decimal (n : Int) : List Char :=
  if n < 0 then '-' :: Nat.toDigits 10 n.natAbs else Nat.toDigits 10 n.natAbs

structure Line where
  path : List Char
  insertionPoint : Int
  anchor : Int
  nonempty : path ≠ []
  word : ∀ c ∈ path, c ≠ ' ' ∧ c ≠ '\n'

namespace Line

def text (line : Line) : List Char :=
  line.path ++ ' ' :: (decimal line.insertionPoint ++ ' ' :: (decimal line.anchor ++ ['\n']))

def anchorColumn (line : Line) : Nat :=
  line.path.length + 1 + (decimal line.insertionPoint).length + 1

def buffered (line : Line) : List Char :=
  (decimal line.anchor ++ ['\n']).take (lineSize-1-line.anchorColumn)

/-- `insertion_point * 100 + anchor` for a line, with the bounds of `long`. -/
def wireType (line : Line) : Int64 := encode (clamp line.insertionPoint) (strtol line.buffered)

end Line

/-- One line: the manager handles what the user interface sends. -/
def handle (d : Daemon) (line : Line) (a : Answers) : Bool × Daemon :=
  (uiMain line.text).1.foldl (fun result m => pluginsManager result.2 m a) (false, d)

/-- The range checks of `inject_pluglet`. -/
def InRange (id anchor : Int) : Prop :=
  (0 ≤ id ∧ id ≤ (maxNbrPlugins : Int) - 1) ∧
    (anchor = Anchor.pre.code ∨ anchor = Anchor.rep.code ∨ anchor = Anchor.post.code)

instance (id anchor : Int) : Decidable (InRange id anchor) :=
  inferInstanceAs (Decidable (_ ∧ _))

/-- The result and all slots are those of an injection at the line's own insertion point and anchor,
whatever these integers are. -/
def Faithful (line : Line) : Prop := ∀ d a,
  (handle d line a).1 = (injectPluglet d line.insertionPoint line.anchor a).1 ∧
  ∀ id anchor, (handle d line a).2.slots id anchor =
    (injectPluglet d line.insertionPoint line.anchor a).2.slots id anchor

def MeetsPlace (line : Line) : Prop :=
  ∃ id anchor, InRange id anchor ∧ line.wireType.toInt32.toInt = 100*id+anchor

/-- A line in range has its anchor in the buffer and a positive type; out of range, a positive type
is not the code of a place. -/
def Unambiguous (line : Line) : Prop :=
  if InRange line.insertionPoint line.anchor then
    line.anchorColumn < lineSize-1 ∧ ¬ (line.insertionPoint = 0 ∧ line.anchor = 0)
  else line.anchorColumn < lineSize-1 → 0 < line.wireType → ¬ MeetsPlace line

section

theorem fgets_line {body : List Char} (unbroken : '\n' ∉ body) (room : Nat) :
    fgets room (body ++ ['\n']) = ((body ++ ['\n']).take room, (body ++ ['\n']).drop room) := by
  induction body generalizing room with
  | nil => cases room <;> simp [fgets]
  | cons c body ih =>
    obtain ⟨fst,rest⟩ := not_or.mp (mt mem_cons.mpr unbroken)
    cases room with
    | zero => rfl
    | succ room => simp [fgets,Ne.symm fst,ih rest]

theorem mem_of_mem_fgets {c : Char} {room : Nat} {text : List Char}
    (mem : c ∈ (fgets room text).1) : c ∈ text := by
  induction text generalizing room with
  | nil => cases room <;> simp [fgets] at mem
  | cons fst text ih =>
    cases room with
    | zero => simp [fgets] at mem
    | succ room =>
      simp only [fgets] at mem
      split at mem
      · exact mem_cons.mpr (.inl (mem_singleton.mp mem))
      rcases mem_cons.mp mem with eq | hl
      · exact mem_cons.mpr (.inl eq)
      · exact .tail _ (ih hl)

theorem strtok_word {word : List Char} (hn : word ≠ []) (hs : ' ' ∉ word)
    (rest : List Char) : strtok (word ++ ' ' :: rest) = word :: strtok rest := by
  simp [strtok,splitOn_append_cons_self_of_not_mem hs,hn]

theorem strtok_last {word : List Char} (hn : word ≠ []) (hs : ' ' ∉ word) :
    strtok word = [word] := by
  simp [strtok,splitOn_eq_singleton hs,hn]

theorem strtok_solid {text : List Char} (hs : ' ' ∉ text) : (strtok text).length ≤ 1 := by
  rw [strtok,splitOn_eq_singleton hs]
  exact length_filter_le _ _

theorem sendLine_short {line : List Char} (few : (strtok line).length ≤ 2) :
    sendLine line = none := by
  unfold sendLine
  split
  · next tokens => simp [tokens] at few
  · rfl

theorem sendLines_solid {text : List Char} (hso : ' ' ∉ text) (fuel : Nat) :
    (sendLines fuel text).1 = [] := by
  cases fuel with
  | zero => rfl
  | succ fuel =>
    unfold sendLines
    split
    · rfl
    next line rest nonempty read =>
    have hs : sendLine line = none := by
      refine sendLine_short ((strtok_solid fun hb => hso ?_).trans (by simp))
      exact mem_of_mem_fgets (by rw [read]; exact hb)
    simp [hs]

theorem decimal_digits (n : Int) : ∀ c ∈ decimal n, c = '-' ∨ c.isDigit := by
  intro c mem
  have digit : ∀ m : Nat, c ∈ Nat.toDigits 10 m → c.isDigit :=
    fun m => Nat.isDigit_of_mem_toDigits (by simp) (by simp)
  unfold decimal at mem
  split at mem
  · rcases mem_cons.mp mem with sign | hl
    · exact .inl sign
    · exact .inr (digit _ hl)
  · exact .inr (digit _ mem)

theorem decimal_ne_nil (n : Int) : decimal n ≠ [] := by
  unfold decimal
  split <;> simp

theorem decimal_solid (n : Int) : ' ' ∉ decimal n := by
  intro mem
  rcases decimal_digits n _ mem with sign | digit
  · exact absurd sign (by decide)
  · exact absurd digit (by decide)

theorem decimal_unbroken (n : Int) : '\n' ∉ decimal n := by
  intro mem
  rcases decimal_digits n _ mem with sign | digit
  · exact absurd sign (by decide)
  · exact absurd digit (by decide)

theorem magnitude_toDigits (n : Nat) : magnitude (Nat.toDigits 10 n) = n := by
  have digits : (Nat.toDigits 10 n).takeWhile Char.isDigit = Nat.toDigits 10 n :=
    takeWhile_eq_self_iff.mpr fun c mem =>
      Nat.isDigit_of_mem_toDigits (by simp) (by simp) mem
  rw [magnitude,digits,Nat.ofDigitChars_ten_toDigits]

theorem isspace_of_isDigit {c : Char} (digit : c.isDigit) : isspace c = false := by
  by_contra hb
  simp only [isspace,mem_cons,not_mem_nil,or_false,decide_eq_true_eq,Bool.not_eq_false] at hb
  rcases hb with rfl | rfl | rfl | rfl | rfl | rfl <;> revert digit <;> decide

/-- A number that is written out is read back, up to the bounds of `long`. -/
theorem strtol_decimal (n : Int) : strtol (decimal n) = clamp n := by
  unfold strtol
  by_cases negative : n < 0
  · simp only [decimal,negative,↓reduceIte,dropWhile_cons,show isspace '-' = false from by decide,Bool.false_eq_true,
      magnitude_toDigits]
    congr 1
    omega
  rw [decimal,if_neg negative]
  obtain ⟨fst,digits,hw⟩ := exists_cons_of_ne_nil
    (Nat.toDigits_ne_nil : Nat.toDigits 10 n.natAbs ≠ [])
  have digit : fst.isDigit :=
    Nat.isDigit_of_mem_toDigits (by simp) (by simp) (hw ▸ mem_cons_self)
  have val := magnitude_toDigits n.natAbs
  rw [hw] at val ⊢
  simp only [dropWhile_cons,isspace_of_isDigit digit,Bool.false_eq_true,↓reduceIte]
  congr 1
  split
  · next sign =>
    obtain ⟨rfl,-⟩ := cons.inj sign
    exact absurd digit (by decide)
  · next sign =>
    obtain ⟨rfl,-⟩ := cons.inj sign
    exact absurd digit (by decide)
  rw [val]
  omega

end

section

variable {line : Line}

section

variable (line : Line)

theorem Line.path_solid : ' ' ∉ line.path := fun hb => (line.word _ hb).1 rfl

theorem Line.buffered_solid : ' ' ∉ line.buffered := by
  intro hb
  have hm := mem_of_mem_take hb
  simp [decimal_solid] at hm

theorem Line.fgets_text (room : Nat) :
    fgets room line.text = (line.text.take room, line.text.drop room) := by
  have unbroken : '\n' ∉ line.path ++ ' ' :: (decimal line.insertionPoint ++
      ' ' :: decimal line.anchor) := by
    have path : '\n' ∉ line.path := fun mem => (line.word _ mem).2 rfl
    simp [path,decimal_unbroken]
  have shape : line.text = (line.path ++ ' ' :: (decimal line.insertionPoint ++
      ' ' :: decimal line.anchor)) ++ ['\n'] := by simp [Line.text]
  rw [shape]
  exact fgets_line unbroken room

theorem Line.text_eq : line.text = (line.path ++ ' ' :: (decimal line.insertionPoint ++ [' '])) ++
      (decimal line.anchor ++ ['\n']) := by
  simp [Line.text]

theorem Line.head_length :
    (line.path ++ ' ' :: (decimal line.insertionPoint ++ [' '])).length = line.anchorColumn := by
  simp [Line.anchorColumn]
  omega

end

theorem Line.take_reaching (hr : line.anchorColumn < lineSize-1) :
    line.text.take (lineSize-1) =
      line.path ++ ' ' :: (decimal line.insertionPoint ++ ' ' :: line.buffered) := by
  rw [Line.text_eq,take_append,line.head_length,take_of_length_le (by rw [line.head_length]; omega)]
  simp [Line.buffered]

theorem Line.sendLine_reaching (hr : line.anchorColumn < lineSize-1) :
    sendLine (line.text.take (lineSize-1)) =
      msgsnd ⟨line.wireType, String.ofList line.path⟩ := by
  have hn : line.buffered ≠ [] := by
    have room : lineSize - 1 - line.anchorColumn ≠ 0 := by omega
    simp [Line.buffered,room]
  have tokens : strtok (line.text.take (lineSize-1)) =
      [line.path, decimal line.insertionPoint, line.buffered] := by
    rw [Line.take_reaching hr,strtok_word line.nonempty line.path_solid,
      strtok_word (decimal_ne_nil _) (decimal_solid _),strtok_last hn line.buffered_solid]
  simp [sendLine,tokens,strtol_decimal,Line.wireType]

theorem Line.sendLine_cut (cut : lineSize - 1 ≤ line.anchorColumn) :
    sendLine (line.text.take (lineSize-1)) = none := by
  generalize lineSize - 1 = room at cut
  apply sendLine_short
  rw [Line.text_eq,take_append_of_le_length (by rw [line.head_length]; exact cut)]
  rcases lt_or_ge line.path.length room with afterPath | inPath
  · obtain ⟨more,rfl⟩ : ∃ more, room = line.path.length + (more+1) :=
      ⟨room-line.path.length-1,by omega⟩
    rw [take_length_add_append,take_succ_cons,
      strtok_word line.nonempty line.path_solid,length_cons]
    rcases lt_or_ge (decimal line.insertionPoint).length more with hw | hi
    · rw [take_of_length_le (by simp; omega),strtok_word (decimal_ne_nil _) (decimal_solid _)]
      simp [strtok]
    have hs : ' ' ∉ (decimal line.insertionPoint).take more :=
      fun hb => decimal_solid _ (mem_of_mem_take hb)
    rw [take_append_of_le_length hi]
    exact Nat.succ_le_succ (strtok_solid hs)
  · rw [take_append_of_le_length inPath]
    exact (strtok_solid fun hb => line.path_solid (mem_of_mem_take hb)).trans (by simp)

theorem Line.messages (line : Line) : (uiMain line.text).1 = if line.anchorColumn < lineSize-1 then
      (msgsnd ⟨line.wireType, String.ofList line.path⟩).toList
    else [] := by
  have turn : ∃ fuel, line.text.length = fuel+1 :=
    Nat.exists_eq_succ_of_ne_zero (by simp [Line.text])
  obtain ⟨fuel,turns⟩ := turn
  have hn : line.text.take (lineSize-1) ≠ [] := by simp [Line.text,lineSize]
  unfold uiMain
  rw [turns,sendLines,Line.fgets_text]
  split
  · next empty => exact absurd (Prod.ext_iff.mp empty).1 hn
  next first rest _ read =>
  obtain ⟨rfl,rfl⟩ := Prod.ext_iff.mp read
  split_ifs with hr
  · rw [Line.sendLine_reaching hr]
    cases hse : msgsnd ⟨line.wireType, String.ofList line.path⟩ with
    | none => rfl
    | some m =>
      have hs : ' ' ∉ line.text.drop (lineSize-1) := by
        rw [Line.text_eq,drop_append,drop_eq_nil_of_le (by rw [line.head_length]; omega),nil_append]
        intro hb
        have hm := mem_of_mem_drop hb
        simp [decimal_solid] at hm
      simp [sendLines_solid hs]
  · simp [Line.sendLine_cut (Nat.not_lt.mp hr)]

theorem handle_eq (d : Daemon) (line : Line) (a : Answers) : handle d line a =
    if line.anchorColumn < lineSize-1 ∧ 0 < line.wireType then
      pluginsManager d ⟨line.wireType, String.ofList line.path⟩ a
    else (false, d) := by
  rw [handle,Line.messages]
  by_cases hr : line.anchorColumn < lineSize-1
  · by_cases pos : 0 < line.wireType <;> simp [hr,pos,msgsnd]
  · simp [hr]

end

section

variable {id anchor : Int}

theorem attempts_inRange {d : Daemon} {a : Answers} (attempt : AttemptsLoad d id anchor a) :
    InRange id anchor := by
  obtain ⟨hv,-,plugin,-,possible⟩ := attempt
  refine ⟨by omega,?_⟩
  by_contra other
  simp only [not_or] at other
  exact possible (by simp [Plugin.create,other])

theorem injectPluglet_refused (ho : ¬ InRange id anchor) (d : Daemon) (a : Answers) :
    (injectPluglet d id anchor a).1 = false ∧
      ∀ index which, (injectPluglet d id anchor a).2.slots index which = d.slots index which := by
  have out := injectPluglet_outcome d id anchor a
  generalize (injectPluglet d id anchor a).1 = ok at out
  generalize (injectPluglet d id anchor a).2 = d' at out
  cases out with
  | ignored => exact ⟨rfl,fun _ _ => rfl⟩
  | prepared _ hp => exact ⟨rfl,prepared_slots hp⟩
  | failed attempt => exact absurd (attempts_inRange attempt) ho
  | loaded attempt => exact absurd (attempts_inRange attempt) ho

def goodAnswers : Answers := ⟨true, some 0, true, true, some []⟩

theorem injectPluglet_initial (hi : InRange id anchor) :
    (injectPluglet .initial id anchor goodAnswers).1 := by
  obtain ⟨⟨low,high⟩,hk⟩ := hi
  have hv : ¬ (id < 0 ∨ (maxNbrPlugins : Int) - 1 < id) := by omega
  rw [injectPluglet,if_neg hv]
  rcases hk with rfl | rfl | rfl <;>
    simp [pluginAt,Daemon.initial,goodAnswers,Plugin.create,Plugin.empty,
      fillSlot,replicate,maxNbrPluglets,Anchor.code,loadElfFile,loadElf]

theorem decode_place {m : Message} (hi : InRange id anchor)
    (code : m.mesgType.toInt32.toInt = 100*id+anchor) :
    m.insertionPoint = id ∧ m.anchor = anchor := by
  obtain ⟨⟨low,high⟩,hk⟩ := hi
  have bounds : 0 ≤ anchor ∧ anchor < 100 := by
    rcases hk with rfl | rfl | rfl <;> decide
  have read : m.anchor = anchor := by
    rw [Message.anchor,code,Int.tmod_eq_emod_of_nonneg (by omega)]
    omega
  refine ⟨?_,read⟩
  rw [Message.insertionPoint,code,read,Int.tdiv_eq_ediv_of_nonneg (by omega)]
  omega

theorem decode_eq (m : Message) : m.mesgType.toInt32.toInt = 100*m.insertionPoint+m.anchor := by
  have hd : (100 : Int) ∣ m.mesgType.toInt32.toInt - m.anchor := Int.dvd_self_sub_tmod
  rw [Message.insertionPoint,Int.mul_tdiv_cancel' hd]
  omega

theorem meetsPlace_iff (line : Line) (text : String) : MeetsPlace line ↔
    InRange (Message.mk line.wireType text).insertionPoint (Message.mk line.wireType text).anchor := by
  constructor
  · rintro ⟨id,anchor,hi,code⟩
    obtain ⟨rfl,rfl⟩ := decode_place (m := ⟨line.wireType,text⟩) hi code
    exact hi
  intro hi
  exact ⟨_,_,hi,decode_eq ⟨line.wireType,text⟩⟩

theorem wireType_inRange {line : Line} (hi : InRange line.insertionPoint line.anchor)
    (hr : line.anchorColumn < lineSize-1) :
    line.wireType = Int64.ofInt (100*line.insertionPoint+line.anchor) := by
  obtain ⟨⟨low,high⟩,hk⟩ := hi
  have high' : line.insertionPoint ≤ 29 := high
  have room : ∃ more, lineSize - 1 - line.anchorColumn = more+1 := ⟨_,(Nat.succ_pred (by omega)).symm⟩
  obtain ⟨more,room⟩ := room
  have anchorRead : strtol line.buffered = Int64.ofInt line.anchor := by
    rw [Line.buffered,room]
    rcases hk with eq | eq | eq <;> rw [eq] <;> cases more <;> rfl
  have point : clamp line.insertionPoint = Int64.ofInt line.insertionPoint := by
    rw [clamp,min_eq_left (by omega),max_eq_right (by omega)]
  rw [Line.wireType,encode,anchorRead,point,Int64.ofInt_add,Int64.ofInt_mul,Int64.mul_comm]
  rfl

theorem code_toInt (hi : InRange id anchor) :
    (Int64.ofInt (100*id+anchor)).toInt32.toInt = 100*id+anchor ∧
      (0 < Int64.ofInt (100*id+anchor) ↔ ¬ (id = 0 ∧ anchor = 0)) := by
  obtain ⟨⟨low,high⟩,hk⟩ := hi
  have high' : id ≤ 29 := high
  have bounds : 0 ≤ anchor ∧ anchor ≤ 2 := by
    rcases hk with rfl | rfl | rfl <;> decide
  constructor
  · rw [Int64.toInt32_ofInt]
    exact Int32.toInt_ofInt_of_le (by omega) (by omega)
  rw [Int64.lt_iff_toInt_lt,Int64.toInt_ofInt_of_le (by omega) (by omega)]
  simp only [Int64.toInt_zero]
  omega

end

def wideAnchor : Line := ⟨['a', '.', 'o'], 3, 101, by simp, by simp⟩

end Frr.Plugins
