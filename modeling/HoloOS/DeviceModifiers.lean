import HoloOS.DeviceKeyboard
import Mathlib.Data.List.Induction

/-! The modifier flags of the keyboard and the keys that are down. A press sends the make code of a key, a release
the make code with bit 7 set, and an extended key sends 0xe0 before either. The make codes of the right Ctrl and the
right Alt are not in the range that the handler looks up, and a release clears a flag that two keys share. -/

namespace HoloOS

open Function

/-- A key of scan code set 1; no release sends 0xe0 itself. -/
structure Key where
  ext : Bool
  code : BitVec 8
  make : code.toNat < 128 ∧ code ≠ 0x60
  deriving DecidableEq

structure Stroke where
  key : Key
  down : Bool

/-- The bytes that a stroke sends. -/
def Stroke.bytes (e : Stroke) : List (BitVec 8) :=
  (if e.key.ext then [0xe0] else []) ++ [if e.down then e.key.code else e.key.code ||| 0x80]

/-- The modifiers that two keys share. -/
inductive Modifier where
  | shift
  | ctrl
  | alt
  deriving DecidableEq

def Modifier.left : Modifier → Key
  | .shift => ⟨false, 0x2a, by decide⟩
  | .ctrl => ⟨false, 0x1d, by decide⟩
  | .alt => ⟨false, 0x38, by decide⟩

def Modifier.right : Modifier → Key
  | .shift => ⟨false, 0x36, by decide⟩
  | .ctrl => ⟨true, 0x1d, by decide⟩
  | .alt => ⟨true, 0x38, by decide⟩

def Keyboard.status (kbd : Keyboard) : Modifier → Bool
  | .shift => kbd.shiftStatus
  | .ctrl => kbd.ctrlStatus
  | .alt => kbd.altStatus

/-- The static flags at boot. -/
def keyboardStart : Keyboard := ⟨false, false, false, false, false⟩

/-- The handler called for one byte after another. -/
def feed (kbd : Keyboard) (bytes : List (BitVec 8)) : Keyboard := bytes.foldl (fun kbd byte => (scan kbd byte).1) kbd

/-- The keys that are down after some strokes. -/
def downKeys (strokes : List Stroke) : Key → Bool :=
  strokes.foldl (fun down e => update down e.key e.down) fun _ => false

/-- Each flag is on exactly when one of its two keys is down. -/
def Follows (kbd : Keyboard) (down : Key → Bool) : Prop :=
  ∀ mod : Modifier, kbd.status mod = (down mod.left || down mod.right)

/-- The flags follow the keys after every stroke, and `extScancode` is on only after a 0xe0. -/
def FlagsFollow (strokes : List Stroke) : Prop :=
  (∀ done, done <+: strokes → Follows (feed keyboardStart (done.flatMap Stroke.bytes)) (downKeys done)) ∧
    ∀ bytes byte, bytes ++ [byte] <+: strokes.flatMap Stroke.bytes →
      (feed keyboardStart (bytes ++ [byte])).extScancode = true → byte = 0xe0

variable {kbd : Keyboard} {down : Key → Bool} {byte : BitVec 8} {e : Stroke} {key : Key} {mod : Modifier}
  {strokes done : List Stroke} {code : Nat}

/-- The scan code of a key as the handler keeps it. -/
def Key.scancode (key : Key) : Nat := if key.ext then key.code.toNat ||| 0xe000 else key.code.toNat

/-- The character that the handler looks up. -/
def keyChar (kbd : Keyboard) (scancode : Nat) : Nat :=
  if (if shiftOnly scancode then kbd.shiftStatus else xor kbd.shiftStatus kbd.capslockStatus)
    then (keymap.getD (scancode &&& 0x00ff) (0, 0)).2 else (keymap.getD (scancode &&& 0x00ff) (0, 0)).1

/-- What the handler does to the flags for a whole scan code. -/
def flagsAfter (kbd : Keyboard) (scancode : Nat) : Keyboard :=
  if scancode &&& 0x0080 ≠ 0 then setModifier kbd (scancode &&& 0xff7f) false
  else if 0x01 ≤ scancode ∧ scancode ≤ 0x3a then
    if keyChar kbd scancode ≠ 0 then kbd else setModifier kbd (scancode &&& 0x00ff) true
  else kbd

theorem scan_e0 (kbd : Keyboard) : (scan kbd 0xe0).1 = { kbd with extScancode := true } := rfl

theorem scan_code (hbyte : byte ≠ 0xe0) : (scan kbd byte).1 =
    flagsAfter { kbd with extScancode := false } (if kbd.extScancode then byte.toNat ||| 0xe000 else byte.toNat) := by
  unfold scan flagsAfter
  rw [if_neg hbyte]
  dsimp only
  generalize (if kbd.extScancode then byte.toNat ||| 0xe000 else byte.toNat) = scancode
  unfold keyChar
  split_ifs <;> rfl

theorem setModifier_ext (kbd : Keyboard) (code : Nat) (down : Bool) :
    (setModifier kbd code down).extScancode = kbd.extScancode := by
  unfold setModifier
  split_ifs <;> rfl

theorem flagsAfter_ext (kbd : Keyboard) (scancode : Nat) : (flagsAfter kbd scancode).extScancode = kbd.extScancode := by
  unfold flagsAfter
  split_ifs <;> first | rfl | exact setModifier_ext _ _ _

/-- `extScancode` is on after 0xe0 and after no other byte. -/
theorem scan_ext (kbd : Keyboard) (byte : BitVec 8) : (scan kbd byte).1.extScancode = true ↔ byte = 0xe0 := by
  by_cases hbyte : byte = 0xe0
  · rw [hbyte, scan_e0]
    exact iff_of_true rfl rfl
  · rw [scan_code hbyte, flagsAfter_ext]
    exact iff_of_false Bool.false_ne_true hbyte

theorem make_bits (hcode : code < 128) :
    code &&& 0x80 = 0 ∧ code &&& 0xff = code ∧ (code ||| 0xe000) &&& 0x80 = 0 ∧
    (code ||| 0xe000) = code + 0xe000 := by
  revert code
  decide

theorem break_bits (hcode : code < 128) : (code ||| 0x80) &&& 0x80 ≠ 0 ∧ (code ||| 0x80) &&& 0xff7f = code ∧
    (code ||| 0x80 ||| 0xe000) &&& 0x80 ≠ 0 ∧ (code ||| 0x80 ||| 0xe000) &&& 0xff7f = code ||| 0xe000 := by
  revert code
  decide

theorem scancode_injective {key key' : Key} (h : key.scancode = key'.scancode) : key = key' := by
  obtain ⟨ext, code, hmake⟩ := key
  obtain ⟨ext', code', hmake'⟩ := key'
  have hsum := (make_bits hmake.1).2.2.2
  have hsum' := (make_bits hmake'.1).2.2.2
  have hlt := hmake.1
  have hlt' := hmake'.1
  unfold Key.scancode at h
  cases ext <;> cases ext' <;> simp only [Bool.false_eq_true, if_true, if_false, hsum, hsum'] at h
  · obtain rfl := BitVec.eq_of_toNat_eq h
    rfl
  · omega
  · omega
  · obtain rfl := BitVec.eq_of_toNat_eq (Nat.add_right_cancel h)
    rfl

theorem setModifier_status (kbd : Keyboard) (code : Nat) (down : Bool) : (setModifier kbd code down).status mod =
    if code = mod.left.scancode ∨ code = mod.right.scancode then down else kbd.status mod := by
  unfold setModifier ctrlLMake ctrlRMake shiftLMake shiftRMake altLMake altRMake capsLockMake
  cases mod with
  | shift =>
      change _ = if code = 0x2a ∨ code = 0x36 then down else kbd.shiftStatus
      split_ifs <;> first | rfl | omega
  | ctrl =>
      change _ = if code = 0x1d ∨ code = 0xe01d then down else kbd.ctrlStatus
      split_ifs <;> rfl
  | alt =>
      change _ = if code = 0x38 ∨ code = 0xe038 then down else kbd.altStatus
      split_ifs <;> first | rfl | omega

theorem left_keyChar (mod : Modifier) (kbd : Keyboard) : keyChar kbd mod.left.scancode = 0 := by
  cases mod <;> exact ite_self _

theorem shiftRight_keyChar (kbd : Keyboard) : keyChar kbd Modifier.shift.right.scancode = 0 := ite_self _

theorem modifier_scancode (mod : Modifier) : 1 ≤ mod.left.scancode ∧ mod.left.scancode ≤ 0x3a ∧
    1 ≤ mod.right.scancode ∧ (mod.right.scancode ≤ 0x3a ↔ mod = .shift) ∧
    (mod ≠ .shift → 0xe000 ≤ mod.right.scancode) := by
  cases mod <;> decide

/-- The strokes that the handler does set a flag for: presses of the right Ctrl and the right Alt are missing. -/
def Modifier.Seen (mod : Modifier) (e : Stroke) : Prop :=
  e.key = mod.left ∨ e.key = mod.right ∧ (e.down = true → mod = .shift)

instance (mod : Modifier) (e : Stroke) : Decidable (mod.Seen e) := inferInstanceAs (Decidable (_ ∨ _))

theorem flagsAfter_break (kbd : Keyboard) (key : Key) :
    flagsAfter kbd (if key.ext then (key.code ||| 0x80).toNat ||| 0xe000 else (key.code ||| 0x80).toNat) =
      setModifier kbd key.scancode false := by
  obtain ⟨hbit, hmake, hbit', hmake'⟩ := break_bits key.make.1
  unfold flagsAfter Key.scancode
  rw [BitVec.toNat_or, show (0x80 : BitVec 8).toNat = 0x80 from rfl]
  cases key.ext
  · simp only [Bool.false_eq_true, if_false, if_pos hbit, hmake]
  · simp only [if_true, if_pos hbit', hmake']

theorem seen_make (mod : Modifier) (key : Key) : mod.Seen ⟨key, true⟩ ↔
    (key.scancode = mod.left.scancode ∨ key.scancode = mod.right.scancode) ∧ key.scancode ≤ 0x3a := by
  obtain ⟨-, hleft, -, hright, -⟩ := modifier_scancode mod
  constructor
  · rintro (hkey | ⟨hkey, hshift⟩)
    · obtain rfl : key = mod.left := hkey
      exact ⟨Or.inl rfl, hleft⟩
    · obtain rfl : key = mod.right := hkey
      exact ⟨Or.inr rfl, hright.2 (hshift rfl)⟩
  · rintro ⟨hkey | hkey, hle⟩
    · exact Or.inl (scancode_injective hkey)
    · exact Or.inr ⟨scancode_injective hkey, fun _ => hright.1 (hkey ▸ hle)⟩

theorem flagsAfter_make (kbd : Keyboard) (key : Key) : (flagsAfter kbd key.scancode).status mod =
    if mod.Seen ⟨key, true⟩ then true else kbd.status mod := by
  obtain ⟨hbit, hmake, hbit', hsum⟩ := make_bits key.make.1
  have hbreak : ¬key.scancode &&& 0x80 ≠ 0 := by
    unfold Key.scancode
    split_ifs
    · exact not_not.2 hbit'
    · exact not_not.2 hbit
  unfold flagsAfter
  rw [if_neg hbreak]
  by_cases hrange : 0x01 ≤ key.scancode ∧ key.scancode ≤ 0x3a
  · have hidx : key.scancode &&& 0x00ff = key.scancode := by
      unfold Key.scancode at hrange ⊢
      split_ifs at hrange ⊢
      · omega
      · exact hmake
    rw [if_pos hrange, hidx]
    by_cases hseen : mod.Seen ⟨key, true⟩
    · obtain ⟨hcode, hle⟩ := (seen_make mod key).1 hseen
      have hchar : keyChar kbd key.scancode = 0 := by
        rcases hseen with hkey | ⟨hkey, hshift⟩
        · rw [show key = mod.left from hkey]
          exact left_keyChar mod kbd
        · rw [show key = mod.right from hkey, hshift rfl]
          exact shiftRight_keyChar kbd
      rw [if_neg (not_not.2 hchar), setModifier_status, if_pos hcode, if_pos hseen]
    · have hcode : ¬(key.scancode = mod.left.scancode ∨ key.scancode = mod.right.scancode) :=
        fun h => hseen ((seen_make mod key).2 ⟨h, hrange.2⟩)
      rw [if_neg hseen]
      split_ifs
      · rfl
      · rw [setModifier_status, if_neg hcode]
  · have hseen : ¬mod.Seen ⟨key, true⟩ := by
      intro h
      obtain ⟨hkey, hle⟩ := (seen_make mod key).1 h
      obtain ⟨hleft, -, hright, -⟩ := modifier_scancode mod
      refine hrange ⟨?_, hle⟩
      rcases hkey with hkey | hkey <;> omega
    rw [if_neg hrange, if_neg hseen]

theorem break_ne_e0 {code : BitVec 8} (hmake : code.toNat < 128 ∧ code ≠ 0x60) :
    code ≠ 0xe0 ∧ code ||| 0x80 ≠ 0xe0 := by
  revert code
  decide

/-- The last byte of a stroke. -/
def Stroke.last (e : Stroke) : BitVec 8 := if e.down then e.key.code else e.key.code ||| 0x80

theorem last_ne_e0 (e : Stroke) : e.last ≠ 0xe0 := by
  unfold Stroke.last
  split_ifs
  · exact (break_ne_e0 e.key.make).1
  · exact (break_ne_e0 e.key.make).2

theorem feed_stroke (hext : kbd.extScancode = false) (e : Stroke) : feed kbd e.bytes =
    flagsAfter kbd (if e.key.ext then e.last.toNat ||| 0xe000 else e.last.toNat) := by
  have hlast := last_ne_e0 e
  have hkbd : { kbd with extScancode := false } = kbd := by rw [← hext]
  cases hkey : e.key.ext with
  | false =>
      have hbytes : e.bytes = [e.last] := by rw [Stroke.bytes, hkey]; rfl
      rw [hbytes, feed, List.foldl_cons, List.foldl_nil, scan_code hlast, hext, hkbd]
  | true =>
      have hbytes : e.bytes = [0xe0, e.last] := by rw [Stroke.bytes, hkey]; rfl
      rw [hbytes, feed, List.foldl_cons, List.foldl_cons, List.foldl_nil, scan_e0, scan_code hlast]
      exact congrArg (fun kbd => flagsAfter kbd _) hkbd

/-- What a stroke does to a flag. -/
theorem stroke_status (hext : kbd.extScancode = false) (e : Stroke) :
    (feed kbd e.bytes).status mod = if mod.Seen e then e.down else kbd.status mod := by
  obtain ⟨key, down⟩ := e
  rw [feed_stroke hext]
  cases down with
  | true => exact flagsAfter_make kbd key
  | false =>
      have hseen : mod.Seen ⟨key, false⟩ ↔ key.scancode = mod.left.scancode ∨ key.scancode = mod.right.scancode := by
        constructor
        · rintro (hkey | ⟨hkey, -⟩)
          · exact Or.inl (congrArg Key.scancode hkey)
          · exact Or.inr (congrArg Key.scancode hkey)
        · rintro (hkey | hkey)
          · exact Or.inl (scancode_injective hkey)
          · exact Or.inr ⟨scancode_injective hkey, fun h => absurd h Bool.false_ne_true⟩
      refine ((congrArg (Keyboard.status · mod) (flagsAfter_break kbd key)).trans (setModifier_status kbd _ _)).trans ?_
      exact if_congr hseen.symm rfl rfl

theorem stroke_ext (hext : kbd.extScancode = false) (e : Stroke) : (feed kbd e.bytes).extScancode = false := by
  rw [feed_stroke hext, flagsAfter_ext, hext]

/-- The strokes after which the flags still follow the keys: the right Ctrl or Alt goes down only while a key of
its pair is down, and a key of a pair goes up only while the other is up. -/
def Stroke.Safe (down : Key → Bool) (e : Stroke) : Prop :=
  ∀ mod : Modifier,
    (e.down = true → e.key = mod.right → mod ≠ .shift → (down mod.left || down mod.right) = true) ∧
    (e.down = false → (e.key = mod.left → down mod.right = false) ∧ (e.key = mod.right → down mod.left = false))

theorem left_ne_right (mod : Modifier) : mod.left ≠ mod.right := by
  cases mod <;> decide

/-- From flags that follow the keys, one stroke keeps them so exactly when it is safe. -/
theorem follows_stroke (hext : kbd.extScancode = false) (h : Follows kbd down) (e : Stroke) :
    Follows (feed kbd e.bytes) (update down e.key e.down) ↔ e.Safe down := by
  refine forall_congr' fun mod => ?_
  have hne := left_ne_right mod
  rw [stroke_status hext, h mod]
  obtain ⟨key, pressed⟩ := e
  dsimp only
  by_cases hleft : key = mod.left
  · have hseen : mod.Seen ⟨key, pressed⟩ := Or.inl hleft
    rw [if_pos hseen, hleft, update_self, update_of_ne hne.symm]
    cases pressed <;> cases down mod.right <;> simp [hne]
  by_cases hright : key = mod.right
  · rw [hright, update_of_ne hne, update_self]
    by_cases hseen : mod.Seen ⟨mod.right, pressed⟩
    · rw [if_pos hseen]
      have hshift : pressed = true → mod = .shift := (hseen.resolve_left fun he => hne he.symm).2
      cases pressed <;> cases down mod.left <;> simp_all [Ne.symm hne]
    · have hmissing : pressed = true ∧ mod ≠ .shift := by
        by_contra hother
        exact hseen (Or.inr ⟨rfl, fun hpressed => not_not.1 fun hshift => hother ⟨hpressed, hshift⟩⟩)
      rw [if_neg hseen, hmissing.1]
      cases down mod.left <;> cases down mod.right <;> simp [hmissing.2]
  · have hseen : ¬mod.Seen ⟨key, pressed⟩ := fun h => h.elim hleft fun h => hright h.1
    rw [if_neg hseen, update_of_ne (Ne.symm hleft), update_of_ne (Ne.symm hright)]
    simp [hleft, hright]

theorem feed_append (kbd : Keyboard) (bytes more : List (BitVec 8)) :
    feed kbd (bytes ++ more) = feed (feed kbd bytes) more := List.foldl_append

theorem feed_strokes_append (strokes : List Stroke) (e : Stroke) :
    feed keyboardStart ((strokes ++ [e]).flatMap Stroke.bytes) =
      feed (feed keyboardStart (strokes.flatMap Stroke.bytes)) e.bytes := by
  rw [List.flatMap_append, feed_append, List.flatMap_singleton]

theorem downKeys_append (strokes : List Stroke) (e : Stroke) :
    downKeys (strokes ++ [e]) = update (downKeys strokes) e.key e.down := List.foldl_append

/-- Between two strokes `extScancode` is off. -/
theorem strokes_ext (strokes : List Stroke) :
    (feed keyboardStart (strokes.flatMap Stroke.bytes)).extScancode = false := by
  induction strokes using List.reverseRecOn with
  | nil => rfl
  | append_singleton strokes e ih => rw [feed_strokes_append, stroke_ext ih]

/-- The flags follow the keys through a run exactly when every stroke of it is safe. -/
theorem flagsFollow_iff (strokes : List Stroke) :
    FlagsFollow strokes ↔ ∀ done e, done ++ [e] <+: strokes → e.Safe (downKeys done) := by
  have hext : ∀ bytes byte, bytes ++ [byte] <+: strokes.flatMap Stroke.bytes →
      (feed keyboardStart (bytes ++ [byte])).extScancode = true → byte = 0xe0 := by
    intro bytes byte _ hon
    rw [feed_append] at hon
    exact (scan_ext _ byte).1 hon
  unfold FlagsFollow
  rw [and_iff_left hext]
  clear hext
  induction strokes using List.reverseRecOn with
  | nil =>
      refine iff_of_true (fun done hdone => ?_) fun done e h => ?_
      · rw [List.prefix_nil.1 hdone]
        intro mod
        cases mod <;> rfl
      · exact absurd (List.prefix_nil.1 h) (List.append_ne_nil_of_right_ne_nil _ (List.cons_ne_nil _ _))
  | append_singleton strokes e ih =>
      have hstep : Follows (feed keyboardStart (strokes.flatMap Stroke.bytes)) (downKeys strokes) →
          (Follows (feed keyboardStart ((strokes ++ [e]).flatMap Stroke.bytes)) (downKeys (strokes ++ [e])) ↔
            e.Safe (downKeys strokes)) := by
        intro h
        rw [feed_strokes_append, downKeys_append]
        exact follows_stroke (strokes_ext strokes) h e
      constructor
      · intro h done f hdone
        have hearlier := ih.1 fun done hdone => h done (hdone.trans (List.prefix_append _ _))
        rcases List.prefix_concat_iff.1 hdone with heq | hdone
        · obtain ⟨rfl, hlast⟩ := List.append_inj' heq rfl
          obtain rfl := List.cons.inj hlast |>.1
          exact (hstep (h done (List.prefix_append _ _))).1 (h _ (List.prefix_refl _))
        · exact hearlier done f hdone
      · intro h done hdone
        have hearlier := ih.2 fun done f hdone => h done f (hdone.trans (List.prefix_append _ _))
        rcases List.prefix_concat_iff.1 hdone with rfl | hdone
        · exact (hstep (hearlier strokes (List.prefix_refl _))).2 (h strokes e (List.prefix_refl _))
        · exact hearlier done hdone

/-- The right Ctrl goes down. -/
theorem flagsFollow_misses : ¬FlagsFollow [⟨Modifier.ctrl.right, true⟩] := by
  intro h
  have hctrl := h.1 _ (List.prefix_refl _) .ctrl
  exact absurd hctrl (by decide)

end HoloOS
