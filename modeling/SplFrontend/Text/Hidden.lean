/-!
# Characters that cannot be shown as themselves

A character that prints nothing, or that joins the character before it, is unreadable inside a
quoted text. The tables list them by code point, alone or in ranges: controls, format characters,
surrogates, private use, unassigned code points, all separators except the plain space, the marks
that extend the grapheme before them, and whatever else Unicode lets a display ignore, such as the
Hangul fillers. The ranges are ascending and do not touch.
-/

namespace SplFrontend.Text

/-- Hidden ranges from `0x0` to `0x206F`. -/
def hiddenFrom0 : List (Nat × Nat) :=
  [(0x0, 31), (0x7F, 33), (0x300, 111), (0x378, 1), (0x380, 3), (0x483, 6), (0x557, 1), (0x58B, 1),
    (0x590, 45), (0x5C1, 1), (0x5C4, 1), (0x5C7, 8), (0x5EB, 3), (0x5F5, 16), (0x610, 10),
    (0x64B, 20), (0x6D6, 7), (0x6DF, 5), (0x6E7, 1), (0x6EA, 3), (0x70E, 1), (0x730, 28),
    (0x7A6, 10), (0x7B2, 13), (0x7EB, 8), (0x7FB, 2), (0x816, 3), (0x81B, 8), (0x825, 2),
    (0x829, 6), (0x859, 4), (0x86B, 4), (0x890, 15), (0x8CA, 56), (0x941, 7), (0x951, 6),
    (0x962, 1), (0x98D, 1), (0x991, 1), (0x9B3, 2), (0x9BA, 2), (0x9C1, 5), (0x9C9, 1), (0x9CF, 12),
    (0x9E2, 3), (0x9FE, 4), (0xA0B, 3), (0xA11, 1), (0xA3A, 3), (0xA41, 23), (0xA5F, 6), (0xA70, 1),
    (0xA77, 11), (0xABA, 2), (0xAC1, 7), (0xACD, 2), (0xAD1, 14), (0xAE2, 3), (0xAF2, 6),
    (0xAFA, 7), (0xB0D, 1), (0xB11, 1), (0xB3A, 2), (0xB3E, 1), (0xB41, 5), (0xB49, 1), (0xB4D, 14),
    (0xB62, 3), (0xB78, 10), (0xB8B, 2), (0xB96, 2), (0xBA0, 2), (0xBA5, 2), (0xBAB, 2), (0xBBA, 4),
    (0xBC3, 2), (0xBCD, 2), (0xBD1, 20), (0xBFB, 5), (0xC3A, 2), (0xC3E, 2), (0xC45, 18),
    (0xC5E, 1), (0xC62, 3), (0xC70, 6), (0xCBA, 2), (0xCBF, 1), (0xCC5, 22), (0xCE2, 3),
    (0xCF4, 13), (0xD3B, 1), (0xD41, 4), (0xD50, 3), (0xD62, 3), (0xD80, 1), (0xD97, 2), (0xDBE, 1),
    (0xDC7, 8), (0xDD2, 5), (0xDDF, 6), (0xDF0, 1), (0xDF5, 11), (0xE34, 10), (0xE47, 7),
    (0xE5C, 36), (0xEB4, 8), (0xEBE, 1), (0xEC7, 8), (0xEDA, 1), (0xEE0, 31), (0xF18, 1),
    (0xF6D, 17), (0xF80, 4), (0xF86, 1), (0xF8D, 48), (0xFDB, 36), (0x102D, 3), (0x1032, 5),
    (0x1039, 1), (0x103D, 1), (0x1058, 1), (0x105E, 2), (0x1071, 3), (0x1085, 1), (0x10C8, 4),
    (0x10CE, 1), (0x115F, 1), (0x124E, 1), (0x125E, 1), (0x128E, 1), (0x12B6, 1), (0x12C6, 1),
    (0x1316, 1), (0x135B, 4), (0x137D, 2), (0x139A, 5), (0x13F6, 1), (0x13FE, 1), (0x169D, 2),
    (0x16F9, 6), (0x1712, 12), (0x1732, 2), (0x1737, 8), (0x1752, 13), (0x1771, 14), (0x17B4, 1),
    (0x17B7, 6), (0x17C9, 10), (0x17DD, 2), (0x17EA, 5), (0x17FA, 5), (0x180B, 4), (0x181A, 5),
    (0x1879, 6), (0x1885, 1), (0x18AB, 4), (0x18F6, 9), (0x191F, 3), (0x1927, 1), (0x192C, 3),
    (0x1939, 6), (0x1941, 2), (0x196E, 1), (0x1975, 10), (0x19AC, 3), (0x19CA, 5), (0x19DB, 2),
    (0x1A17, 1), (0x1A1B, 2), (0x1A58, 8), (0x1A65, 7), (0x1A73, 12), (0x1A8A, 5), (0x1A9A, 5),
    (0x1AAE, 85), (0x1B34, 9), (0x1B42, 2), (0x1B6B, 8), (0x1B80, 1), (0x1BA2, 3), (0x1BA8, 5),
    (0x1BE8, 1), (0x1BEF, 12), (0x1C2C, 7), (0x1C36, 4), (0x1C4A, 2), (0x1C8B, 4), (0x1CBB, 1),
    (0x1CC8, 10), (0x1CD4, 12), (0x1CE2, 6), (0x1CF8, 1), (0x1CFB, 4), (0x1DC0, 63), (0x1F16, 1),
    (0x1F1E, 1), (0x1F46, 1), (0x1F4E, 1), (0x1F7E, 1), (0x1FD4, 1), (0x1FF0, 1), (0x1FFF, 16),
    (0x2028, 7), (0x205F, 16)]

/-- Hidden ranges from `0x2072` to `0x116B7`. -/
def hiddenFrom2072 : List (Nat × Nat) :=
  [(0x2072, 1), (0x209D, 2), (0x20C2, 61), (0x218C, 3), (0x242A, 21), (0x244B, 20), (0x2B74, 1),
    (0x2CEF, 2), (0x2CF4, 4), (0x2D28, 4), (0x2D2E, 1), (0x2D68, 6), (0x2D71, 14), (0x2D97, 8),
    (0x2DDF, 32), (0x2E5E, 33), (0x2EF4, 11), (0x2FD6, 25), (0x302A, 5), (0x3097, 3), (0x3100, 4),
    (0x31E6, 8), (0xA48D, 2), (0xA4C7, 8), (0xA62C, 19), (0xA66F, 3), (0xA674, 9), (0xA69E, 1),
    (0xA6F0, 1), (0xA6F8, 7), (0xA7DD, 19), (0xA825, 1), (0xA82C, 3), (0xA83A, 5), (0xA878, 7),
    (0xA8C4, 9), (0xA8DA, 23), (0xA926, 7), (0xA947, 10), (0xA953, 11), (0xA97D, 5), (0xA9B6, 3),
    (0xA9BC, 1), (0xA9DA, 3), (0xAA29, 5), (0xAA31, 1), (0xAA35, 10), (0xAA4E, 1), (0xAA5A, 1),
    (0xAAB2, 2), (0xAAB7, 1), (0xAABE, 1), (0xAAC3, 23), (0xAAEC, 1), (0xAAF6, 10), (0xAB07, 1),
    (0xAB0F, 1), (0xAB17, 8), (0xAB6C, 3), (0xABED, 2), (0xABFA, 5), (0xD7A4, 11), (0xD7C7, 3),
    (0xD7FC, 8451), (0xFA6E, 1), (0xFADA, 37), (0xFB07, 11), (0xFB18, 4), (0xFDD0, 31),
    (0xFE00, 15), (0xFE1A, 21), (0xFE6C, 3), (0xFEFD, 3), (0xFFBF, 2), (0xFFC8, 1), (0xFFD0, 1),
    (0xFFD8, 1), (0xFFDD, 2), (0xFFEF, 12), (0xFFFE, 1), (0x1004E, 1), (0x1005E, 33), (0x100FB, 4),
    (0x10103, 3), (0x10134, 2), (0x1019D, 2), (0x101A1, 46), (0x101FD, 130), (0x1029D, 2),
    (0x102D1, 15), (0x102FC, 3), (0x10324, 8), (0x1034B, 4), (0x10376, 9), (0x103C4, 3),
    (0x103D6, 41), (0x1049E, 1), (0x104AA, 5), (0x104D4, 3), (0x104FC, 3), (0x10528, 7),
    (0x10564, 10), (0x105BD, 2), (0x105F4, 11), (0x10737, 8), (0x10756, 9), (0x10768, 23),
    (0x107BB, 68), (0x10806, 1), (0x10839, 2), (0x1083D, 1), (0x1089F, 7), (0x108B0, 47),
    (0x108F6, 4), (0x1091C, 2), (0x1093A, 4), (0x1095A, 37), (0x109B8, 3), (0x109D0, 1),
    (0x10A01, 14), (0x10A36, 9), (0x10A49, 6), (0x10A59, 6), (0x10AA0, 31), (0x10AE5, 5),
    (0x10AF7, 8), (0x10B36, 2), (0x10B56, 1), (0x10B73, 4), (0x10B92, 6), (0x10B9D, 11),
    (0x10BB0, 79), (0x10C49, 54), (0x10CB3, 12), (0x10CF3, 6), (0x10D24, 11), (0x10D3A, 5),
    (0x10D66, 7), (0x10D86, 7), (0x10D90, 207), (0x10EAA, 2), (0x10EAE, 1), (0x10EB2, 15),
    (0x10EC8, 7), (0x10ED9, 38), (0x10F28, 7), (0x10F46, 10), (0x10F5A, 21), (0x10F82, 3),
    (0x10F8A, 37), (0x10FCC, 19), (0x10FF7, 8), (0x11038, 14), (0x1104E, 3), (0x11073, 1),
    (0x11076, 11), (0x110B3, 3), (0x110B9, 1), (0x110C2, 13), (0x110E9, 6), (0x110FA, 8),
    (0x11127, 4), (0x1112D, 8), (0x11148, 7), (0x11177, 10), (0x111B6, 8), (0x111C9, 3),
    (0x111F5, 10), (0x1122F, 2), (0x11234, 3), (0x11241, 62), (0x112AA, 5), (0x112E3, 12),
    (0x112FA, 7), (0x1130D, 1), (0x11311, 1), (0x1133A, 2), (0x11345, 1), (0x11349, 1),
    (0x1134D, 2), (0x11351, 11), (0x11364, 27), (0x1138C, 1), (0x113BB, 14), (0x113CE, 2),
    (0x113D9, 38), (0x11438, 7), (0x11442, 2), (0x11462, 29), (0x114B3, 5), (0x114BF, 1),
    (0x114C2, 1), (0x114C8, 7), (0x114DA, 165), (0x115B2, 5), (0x115BC, 1), (0x115BF, 1),
    (0x115DC, 35), (0x11633, 7), (0x1163F, 1), (0x11645, 10), (0x1165A, 5), (0x1166D, 18),
    (0x116B0, 7)]

/-- Hidden ranges from `0x116BA` to `0x10FFFF`. -/
def hiddenFrom116BA : List (Nat × Nat) :=
  [(0x116BA, 5), (0x116CA, 5), (0x116E4, 27), (0x1171B, 2), (0x11722, 3), (0x11727, 8),
    (0x11747, 184), (0x1182F, 8), (0x11839, 1), (0x1183C, 99), (0x118F3, 11), (0x11907, 1),
    (0x1190A, 1), (0x11939, 5), (0x11947, 8), (0x1195A, 69), (0x119A8, 1), (0x119D4, 7),
    (0x119E5, 26), (0x11A01, 9), (0x11A33, 5), (0x11A3B, 3), (0x11A47, 8), (0x11A51, 5),
    (0x11A59, 2), (0x11A8A, 12), (0x11A98, 1), (0x11AA3, 12), (0x11AF9, 6), (0x11B0A, 86),
    (0x11B62, 2), (0x11B68, 87), (0x11BE2, 13), (0x11BFA, 5), (0x11C30, 13), (0x11C46, 9),
    (0x11C6D, 2), (0x11C90, 24), (0x11CAA, 6), (0x11CB2, 1), (0x11CB5, 74), (0x11D31, 20),
    (0x11D47, 8), (0x11D5A, 5), (0x11D8F, 3), (0x11D99, 6), (0x11DAA, 5), (0x11DDC, 3),
    (0x11DEA, 245), (0x11EF3, 1), (0x11EF9, 8), (0x11F36, 7), (0x11F40, 2), (0x11F5A, 85),
    (0x11FB1, 14), (0x11FF2, 12), (0x1239A, 101), (0x12475, 10), (0x12544, 2635), (0x12FF3, 12),
    (0x13430, 16), (0x13447, 24), (0x143FB, 4), (0x14647, 6840), (0x1611E, 11), (0x1612D, 2),
    (0x1613A, 1733), (0x16A39, 6), (0x16A6A, 3), (0x16ACA, 5), (0x16AEE, 6), (0x16AF6, 9),
    (0x16B30, 6), (0x16B46, 9), (0x16B78, 4), (0x16B90, 431), (0x16D7A, 197), (0x16E9B, 4),
    (0x16EB9, 1), (0x16ED4, 43), (0x16F4B, 4), (0x16F88, 10), (0x16FA0, 63), (0x16FE4, 13),
    (0x16FF7, 8), (0x18CD6, 40), (0x18D1F, 96), (0x18DF3, 8700), (0x1B123, 14), (0x1B133, 28),
    (0x1B153, 1), (0x1B156, 13), (0x1B168, 7), (0x1B2FC, 2307), (0x1BC6B, 4), (0x1BC7D, 2),
    (0x1BC89, 6), (0x1BC9A, 1), (0x1BC9D, 1), (0x1BCA0, 3935), (0x1CCFD, 2), (0x1CEB4, 5),
    (0x1CED1, 14), (0x1CEF1, 94), (0x1CFC4, 59), (0x1D0F6, 9), (0x1D127, 1), (0x1D165, 4),
    (0x1D16D, 21), (0x1D185, 6), (0x1D1AA, 3), (0x1D1EB, 20), (0x1D242, 2), (0x1D246, 121),
    (0x1D2D4, 11), (0x1D2F4, 11), (0x1D357, 8), (0x1D379, 134), (0x1D4A0, 1), (0x1D4A3, 1),
    (0x1D4A7, 1), (0x1D50B, 1), (0x1D547, 2), (0x1D6A6, 1), (0x1D7CC, 1), (0x1DA00, 54),
    (0x1DA3B, 49), (0x1DA8C, 1139), (0x1DF1F, 5), (0x1DF2B, 260), (0x1E06E, 145), (0x1E12D, 9),
    (0x1E13E, 1), (0x1E14A, 3), (0x1E150, 319), (0x1E2AE, 17), (0x1E2EC, 3), (0x1E2FA, 4),
    (0x1E300, 463), (0x1E4EC, 3), (0x1E4FA, 213), (0x1E5EE, 1), (0x1E5FB, 3), (0x1E600, 191),
    (0x1E6EE, 1), (0x1E6F5, 8), (0x1E700, 223), (0x1E8C5, 1), (0x1E8D0, 47), (0x1E944, 6),
    (0x1E94C, 3), (0x1E95A, 3), (0x1E960, 784), (0x1ECB5, 75), (0x1ED3E, 193), (0x1EE25, 1),
    (0x1EE3C, 5), (0x1EE43, 3), (0x1EE55, 1), (0x1EE65, 1), (0x1EE9C, 4), (0x1EEBC, 51),
    (0x1EEF2, 269), (0x1F02C, 3), (0x1F094, 11), (0x1F0AF, 1), (0x1F0F6, 9), (0x1F1AE, 55),
    (0x1F203, 12), (0x1F23C, 3), (0x1F249, 6), (0x1F252, 13), (0x1F266, 153), (0x1F6D9, 2),
    (0x1F6ED, 2), (0x1F6FD, 2), (0x1F7DA, 5), (0x1F7EC, 3), (0x1F7F1, 14), (0x1F80C, 3),
    (0x1F848, 7), (0x1F85A, 5), (0x1F888, 7), (0x1F8AE, 1), (0x1F8BC, 3), (0x1F8C2, 13),
    (0x1F8D9, 38), (0x1FA58, 7), (0x1FA6E, 1), (0x1FA7D, 2), (0x1FA8B, 2), (0x1FAC9, 3),
    (0x1FADD, 1), (0x1FAEB, 3), (0x1FAF9, 6), (0x1FBFB, 1028), (0x2A6E0, 31), (0x2B81E, 1),
    (0x2CEAE, 1), (0x2EBE1, 14), (0x2EE5E, 2465), (0x2FA1E, 1505), (0x3134B, 4), (0x3347A, 904069)]

/-- Hidden code points between two that are not. -/
def hiddenAlone : List Nat :=
  [0xAD, 0x38B, 0x38D, 0x3A2, 0x530, 0x5BF, 0x61C, 0x670, 0x711, 0x83F, 0x85F, 0x93A, 0x93C, 0x94D,
    0x981, 0x984, 0x9A9, 0x9B1, 0x9BE, 0x9CD, 0x9DE, 0xA04, 0xA29, 0xA31, 0xA34, 0xA37, 0xA5D,
    0xA75, 0xA84, 0xA8E, 0xA92, 0xAA9, 0xAB1, 0xAB4, 0xACA, 0xB04, 0xB29, 0xB31, 0xB34, 0xB5E,
    0xB84, 0xB91, 0xB9B, 0xB9D, 0xBC0, 0xBC9, 0xC04, 0xC0D, 0xC11, 0xC29, 0xC5B, 0xC81, 0xC8D,
    0xC91, 0xCA9, 0xCB4, 0xCC2, 0xCDF, 0xCF0, 0xD0D, 0xD11, 0xD3E, 0xD49, 0xD4D, 0xD57, 0xD84,
    0xDB2, 0xDBC, 0xE31, 0xE83, 0xE85, 0xE8B, 0xEA4, 0xEA6, 0xEB1, 0xEC5, 0xF35, 0xF37, 0xF39,
    0xF48, 0xFC6, 0xFCD, 0x1082, 0x108D, 0x109D, 0x10C6, 0x1249, 0x1257, 0x1259, 0x1289, 0x12B1,
    0x12BF, 0x12C1, 0x12D7, 0x1311, 0x1680, 0x176D, 0x17C6, 0x18A9, 0x1932, 0x1A56, 0x1A62, 0x1B4D,
    0x1BE6, 0x1BED, 0x1CED, 0x1CF4, 0x1F58, 0x1F5A, 0x1F5C, 0x1F5E, 0x1FB5, 0x1FC5, 0x1FDC, 0x1FF5,
    0x208F, 0x2D26, 0x2DA7, 0x2DAF, 0x2DB7, 0x2DBF, 0x2DC7, 0x2DCF, 0x2DD7, 0x2E9A, 0x3000, 0x3040,
    0x3130, 0x3164, 0x318F, 0x321F, 0xA802, 0xA806, 0xA80B, 0xA8FF, 0xA9B3, 0xA9C0, 0xA9CE, 0xA9E5,
    0xA9FF, 0xAA43, 0xAA4C, 0xAA7C, 0xAAB0, 0xAAC1, 0xAB27, 0xAB2F, 0xABE5, 0xABE8, 0xFB1E, 0xFB37,
    0xFB3D, 0xFB3F, 0xFB42, 0xFB45, 0xFE53, 0xFE67, 0xFE75, 0xFFA0, 0xFFE7, 0x1000C, 0x10027,
    0x1003B, 0x1003E, 0x1018F, 0x1039E, 0x1057B, 0x1058B, 0x10593, 0x10596, 0x105A2, 0x105B2,
    0x105BA, 0x10786, 0x107B1, 0x10809, 0x10836, 0x10856, 0x108F3, 0x10A14, 0x10A18, 0x10E7F,
    0x11001, 0x11070, 0x110BD, 0x11173, 0x111C0, 0x111CF, 0x111E0, 0x11212, 0x1123E, 0x11287,
    0x11289, 0x1128E, 0x1129E, 0x112DF, 0x11304, 0x11329, 0x11331, 0x11334, 0x1133E, 0x11340,
    0x1138A, 0x1138F, 0x113B6, 0x113B8, 0x113CB, 0x113D2, 0x113D6, 0x11446, 0x1145C, 0x1145E,
    0x114B0, 0x114BA, 0x114BD, 0x115AF, 0x1163D, 0x116AB, 0x116AD, 0x1171F, 0x11914, 0x11917,
    0x11930, 0x11936, 0x11943, 0x119E0, 0x11B66, 0x11C09, 0x11C3F, 0x11D07, 0x11D0A, 0x11D66,
    0x11D69, 0x11D95, 0x11D97, 0x11F11, 0x1246F, 0x16A5F, 0x16ABF, 0x16B5A, 0x16B62, 0x1AFF4,
    0x1AFFC, 0x1AFFF, 0x1D455, 0x1D49D, 0x1D4AD, 0x1D4BA, 0x1D4BC, 0x1D4C4, 0x1D506, 0x1D515,
    0x1D51D, 0x1D53A, 0x1D53F, 0x1D545, 0x1D551, 0x1DA75, 0x1DA84, 0x1E6DF, 0x1E6E3, 0x1E6E6,
    0x1E7E7, 0x1E7EC, 0x1E7EF, 0x1E7FF, 0x1EE04, 0x1EE20, 0x1EE23, 0x1EE28, 0x1EE33, 0x1EE38,
    0x1EE3A, 0x1EE48, 0x1EE4A, 0x1EE4C, 0x1EE50, 0x1EE53, 0x1EE58, 0x1EE5A, 0x1EE5C, 0x1EE5E,
    0x1EE60, 0x1EE63, 0x1EE6B, 0x1EE73, 0x1EE78, 0x1EE7D, 0x1EE7F, 0x1EE8A, 0x1EEA4, 0x1EEAA,
    0x1F0C0, 0x1F0D0, 0x1FAC7, 0x1FB93]

/-- All hidden ranges, each with its first code point and how many follow that one. -/
def hiddenRanges : List (Nat × Nat) := [hiddenFrom0, hiddenFrom2072, hiddenFrom116BA].flatten

/-- Must the character be written as an escape inside a quoted text? -/
def isHidden (c : Char) : Bool :=
  hiddenAlone.contains c.toNat || hiddenRanges.any fun r => r.1 ≤ c.toNat && c.toNat ≤ r.1 + r.2

end SplFrontend.Text
