namespace ApplianceScript.Text

def occursIn (marker : List Char) : List Char → Bool
  | [] => marker.isEmpty
  | c :: rest => marker.isPrefixOf (c :: rest) || occursIn marker rest

/-- Replacement with the number of characters of an occurrence that are still to be skipped. -/
def replaceFrom (marker replacement : List Char) : Nat → List Char → List Char
  | _, [] => []
  | skip + 1, _ :: rest => replaceFrom marker replacement skip rest
  | 0, c :: rest =>
    if marker.isPrefixOf (c :: rest) then
      replacement ++ replaceFrom marker replacement (marker.length - 1) rest
    else
      c :: replaceFrom marker replacement 0 rest

def replaceIn (marker replacement text : List Char) : List Char :=
  if marker.isEmpty then text else replaceFrom marker replacement 0 text

def occurs (marker text : String) : Bool :=
  occursIn marker.toList text.toList

def replace (marker replacement text : String) : String :=
  String.ofList (replaceIn marker.toList replacement.toList text.toList)

theorem occursIn_iff (marker text : List Char) : occursIn marker text = true ↔ marker <:+: text := by
  induction text with
  | nil => simp [occursIn]
  | cons c rest ih =>
    simp [occursIn, ih, List.isPrefixOf_iff_prefix, List.infix_cons_iff]

theorem occurs_iff (marker text : String) :
    occurs marker text = true ↔ marker.toList <:+: text.toList :=
  occursIn_iff ..

theorem replaceFrom_of_not_occursIn {marker replacement text : List Char}
    (h : occursIn marker text = false) : replaceFrom marker replacement 0 text = text := by
  induction text with
  | nil => rfl
  | cons c rest ih =>
    rw [occursIn, Bool.or_eq_false_iff] at h
    rw [replaceFrom, h.1, ih h.2]
    rfl

theorem replace_of_not_occurs {marker replacement text : String} (h : occurs marker text = false) :
    replace marker replacement text = text := by
  unfold replace replaceIn
  rw [replaceFrom_of_not_occursIn h, ite_self, String.ofList_toList]

end ApplianceScript.Text
