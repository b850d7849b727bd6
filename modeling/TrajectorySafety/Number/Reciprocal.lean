/-!
Reciprocals for the reduction of a logarithm's argument.

The range from 11/16 to 11/8 is cut into 128 pieces: 80 of them with a length of 1/256 below one,
and 48 with a length of 1/128 from one on. Each piece has a point near its middle, at most `2 ^ -23`
away from it, which is chosen such that its logarithm lies within `2 ^ -66` of a multiple of
`2 ^ -43`. So the logarithm of a point has few binary places and nearly no error.
-/

namespace TrajectorySafety.Number

/-- The bits of the reciprocals of the points, by the number of their piece. -/
def reciprocals : Array UInt64 := #[
  0x3ff734f0c3e0de9f, 0x3ff713786a2ce91f, 0x3ff6f26008fab5a0, 0x3ff6d1a61f138c7d,
  0x3ff6b1490bc5b4d1, 0x3ff69147332f0cba, 0x3ff6719f18224223, 0x3ff6524f99a51ed9,
  0x3ff63356aa8f24c4, 0x3ff614b36b9ddc14, 0x3ff5f66452c65c4c, 0x3ff5d867b5912c4f,
  0x3ff5babccb5b90de, 0x3ff59d61f2d91a78, 0x3ff5805612465687, 0x3ff56397cee76bd3,
  0x3ff54725e2a77f93, 0x3ff52aff42064583, 0x3ff50f22dbb2bddf, 0x3ff4f38f4734ded7,
  0x3ff4d843cfde2840, 0x3ff4bd3ec078a3c8, 0x3ff4a27fc3e0258a, 0x3ff4880524d48434,
  0x3ff46dce1b192d0b, 0x3ff453d9d3391854, 0x3ff43a2744b4845a, 0x3ff420b54115f8fb,
  0x3ff40782da3ef4b1, 0x3ff3ee8f5d57fe8f, 0x3ff3d5d9a00b4ce9, 0x3ff3bd60c010c12b,
  0x3ff3a5242b75dab8, 0x3ff38d22cd9fd002, 0x3ff3755bc5847a1c, 0x3ff35dce49ad36e2,
  0x3ff34679984dd440, 0x3ff32f5cceffcb24, 0x3ff3187775a10d49, 0x3ff301c8373e3990,
  0x3ff2eb4ebb95f841, 0x3ff2d50a0219a9d1, 0x3ff2bef9a8b7fd2a, 0x3ff2a91c7a0c1bab,
  0x3ff293726014b530, 0x3ff27dfa5757a1f5, 0x3ff268b39b1d3bbf, 0x3ff2539d838ff5bd,
  0x3ff23eb7aac9083b, 0x3ff22a012ba940b6, 0x3ff2157996cc4132, 0x3ff201201dd2fc9b,
  0x3ff1ecf4494d480b, 0x3ff1d8f5528f6569, 0x3ff1c52311577e7c, 0x3ff1b17c74cb26e9,
  0x3ff19e010c2c1ab6, 0x3ff18ab07bb670bd, 0x3ff1778a25efbcb6, 0x3ff1648d354c31da,
  0x3ff151b990275fdd, 0x3ff13f0ea432d24c, 0x3ff12c8b7210f9da, 0x3ff11a3028ecb531,
  0x3ff107fbda8434af, 0x3ff0f5ee0f4e6bb3, 0x3ff0e4065d2a9fce, 0x3ff0d244632ca521,
  0x3ff0c0a77ce2981a, 0x3ff0af2f83c636d1, 0x3ff09ddb98a01339, 0x3ff08cabaf52e7df,
  0x3ff07b9f2f4e28fb, 0x3ff06ab58c358f19, 0x3ff059eea5ecf92c, 0x3ff04949cdd12c90,
  0x3ff038c6c6f0ada9, 0x3ff02865137932a9, 0x3ff0182427ea7348, 0x3ff008040614b195,
  0x3fefe01ff726fa1a, 0x3fefa11cc261ea74, 0x3fef6310b081992e, 0x3fef25f63ceeadcd,
  0x3feee9c8039113e7, 0x3feeae8078cbb1ab, 0x3fee741aa29d0c9b, 0x3fee3a91830a99b5,
  0x3fee01e009609a56, 0x3fedca01e577bb98, 0x3fed92f20b7c9103, 0x3fed5cac66fb5cce,
  0x3fed272caa5ede9d, 0x3fecf26e3e6b2ccd, 0x3fecbe6da2a77902, 0x3fec8b266d37086d,
  0x3fec5894bd5d5804, 0x3fec26b533bb9f8c, 0x3febf583eeece73f, 0x3febc4fd75db96c1,
  0x3feb951e0c864a28, 0x3feb65e2c5ef3e2c, 0x3feb374867c9888b, 0x3feb094b211d304a,
  0x3feadbe885f2ef7e, 0x3feaaf1d31603da2, 0x3fea82e63fd358a7, 0x3fea5740ef09738b,
  0x3fea2c2a90ab4b27, 0x3fea01a01393f2d1, 0x3fe9d79f24db3c1b, 0x3fe9ae2505c7b190,
  0x3fe9852ef297ce2f, 0x3fe95cbaeea44b75, 0x3fe934c69de74838, 0x3fe90d4f2f6752e6,
  0x3fe8e6528effd79d, 0x3fe8bfce9fcc007c, 0x3fe899c0dabec30e, 0x3fe87427aa2317fb,
  0x3fe84f00acb39a08, 0x3fe82a49e8653e55, 0x3fe8060195f40260, 0x3fe7e22563e0a329,
  0x3fe7beb377dcb5ad, 0x3fe79baa679725c2, 0x3fe77907f2170657, 0x3fe756cadbd6130c]

/-- The reciprocal of the point of a piece. -/
def reciprocal (piece : Nat) : Float := Float.ofBits (reciprocals.getD piece 0x3ff0000000000000)

end TrajectorySafety.Number
