import BlindEye.Block

namespace BlindEye

-- The source drops the height (`let _ = height`).
def createCoinbaseTransaction (_height reward : UInt64) (minerAddress : List UInt8) : Transaction :=
  .new [] [⟨reward,minerAddress⟩]

end BlindEye
