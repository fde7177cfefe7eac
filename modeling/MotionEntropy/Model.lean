import MotionEntropy.Cdf
import MotionEntropy.Tables

namespace MotionEntropy

structure VectorModel where
  joints : Cdf 4
  row : Tables Cdf
  column : Tables Cdf

structure TileModel where
  motion : VectorModel
  blockCopy : VectorModel

namespace FractionTables

def initial : Layout → FractionTables Cdf
  | .joint =>
    .joint #v[.ofFrequencies #v[16384, 24576, 26624], .ofFrequencies #v[12288, 21248, 24128]]
      (.ofFrequencies #v[8192, 17408, 21248])
  | .split =>
    .split
      (#v[#v[24576, 21845, 8192], #v[21248, 18950, 8192]].map (·.map fun f => .ofFrequencies #v[f]))
      (#v[17408, 15420, 8192].map fun f => .ofFrequencies #v[f])

end FractionTables

namespace Tables

def initial (layout : Layout) : Tables Cdf where
  sign := .ofFrequencies #v[128 * 128]
  classes :=
    .ofFrequencies #v[28672, 30976, 31858, 32320, 32551, 32656, 32740, 32757, 32762, 32767]
  class0 := .ofFrequencies #v[128 * 216]
  bits :=
    #v[136, 140, 148, 160, 176, 192, 224, 234, 234, 240].map fun f => .ofFrequencies #v[128 * f]
  fraction := .initial layout
  class0Eighth := .ofFrequencies #v[128 * 160]
  eighth := .ofFrequencies #v[128 * 128]

def resetCounts (t : Tables Cdf) : Tables Cdf := t.map Cdf.resetCount

theorem layout_initial (layout : Layout) : (initial layout).layout = layout := by
  cases layout <;> rfl

end Tables

namespace VectorModel

def initial (layout : Layout) : VectorModel where
  joints := .ofFrequencies #v[4096, 11264, 19328]
  row := .initial layout
  column := .initial layout

def component (m : VectorModel) : Axis → Tables Cdf
  | .row => m.row
  | .column => m.column

def setComponent (m : VectorModel) : Axis → Tables Cdf → VectorModel
  | .row, t => { m with row := t }
  | .column, t => { m with column := t }

def resetCounts (m : VectorModel) : VectorModel where
  joints := m.joints.resetCount
  row := m.row.resetCounts
  column := m.column.resetCounts

end VectorModel

namespace TileModel

def initial (layout : Layout) : TileModel := ⟨.initial layout, .initial layout⟩

def resetCounts (t : TileModel) : TileModel := ⟨t.motion.resetCounts, t.blockCopy.resetCounts⟩

end TileModel

end MotionEntropy
